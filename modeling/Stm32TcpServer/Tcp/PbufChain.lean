import Stm32TcpServer.Tcp.Receive

/-! # What is read from a chain of pbufs

`OnTcpServerRecv` passes on `p->payload` with the length `p->tot_len`: a buffer of the length of the
whole chain that begins in the first pbuf. In the pool each pbuf is a `struct pbuf` and then its
data, so that the payloads of two pbufs never meet. The buffer is the data of the chain, and nothing
else is read, exactly if the first pbuf holds all of it (`forwarded_iff`); of a frame of more than
512 bytes it does not (`exact_frame_iff`). -/

namespace Stm32TcpServer.Tcp.PbufChain

open Stm32TcpServer.Lib.Runs
open Stm32TcpServer.Lwip.Pbuf Stm32TcpServer.Lwip.TcpPcb Stm32TcpServer.Tcp.TcpServer
open Stm32TcpServer.Tcp.Receive

/-- `SIZEOF_STRUCT_PBUF`. -/
abbrev sizeofStructPbuf : ℕ := 16

/-- The size of an element of the pool. -/
abbrev elementSize : ℕ := sizeofStructPbuf + pbufPoolBufsize

/-- **A pbuf of the pool** at the address `addr`; its payload is behind the `struct pbuf`, and behind
the `offset` bytes of the headers that have been hidden. -/
structure PoolPbuf where
  addr : ℕ
  offset : ℕ
  len : ℕ
  deriving DecidableEq, Repr

namespace PoolPbuf

/-- `p->payload`. -/
def payload (p : PoolPbuf) : ℕ := p.addr + sizeofStructPbuf + p.offset

/-- The addresses of the bytes of the payload. -/
def bytes (p : PoolPbuf) : List ℕ := List.range' p.payload p.len

/-- The elements of the pool do not overlap. -/
def Apart (p q : PoolPbuf) : Prop :=
  p.addr + elementSize ≤ q.addr ∨ q.addr + elementSize ≤ p.addr

/-- The element `i` of the pool, which begins at the address `base`. -/
def ofElement (base i offset len : ℕ) : PoolPbuf :=
  { addr := base + i * elementSize, offset := offset, len := len }

theorem apart_ofElement {i j : ℕ} (hne : i ≠ j) (base offset len offset' len' : ℕ) :
    (ofElement base i offset len).Apart (ofElement base j offset' len') := by
  unfold Apart ofElement elementSize sizeofStructPbuf pbufPoolBufsize
  dsimp only
  omega

end PoolPbuf

/-- The sum of the `len` fields of a chain. -/
def totLen (chain : List PoolPbuf) : ℕ := (chain.map PoolPbuf.len).sum

/-- **A well-formed chain**: each payload lies in its pbuf, and no two pbufs are the same. -/
structure WellFormed (chain : List PoolPbuf) : Prop where
  inside : ∀ p ∈ chain, p.offset + p.len ≤ pbufPoolBufsize
  apart : chain.Pairwise PoolPbuf.Apart

/-- The data of a chain. -/
def contents (mem : ℕ → UInt8) (chain : List PoolPbuf) : List UInt8 :=
  (chain.map fun p => p.bytes.map mem).flatten

/-- The addresses of the buffer `p->payload` with the length `p->tot_len`. -/
def reads (first : PoolPbuf) (rest : List PoolPbuf) : List ℕ :=
  List.range' first.payload (totLen (first :: rest))

/-- The buffer that `OnTcpReceiveData` is given. -/
def offered (mem : ℕ → UInt8) (first : PoolPbuf) (rest : List PoolPbuf) : List UInt8 :=
  (reads first rest).map mem

/-- **`OnTcpServerRecv(arg, pcb, p, err)`** for a chain in the memory `mem`. -/
def onTcpServerRecvChain (s : Server) (pcb : Ptr) (mem : ℕ → UInt8) (first : PoolPbuf)
    (rest : List PoolPbuf) (written : Err) : Server :=
  onTcpServerRecv s pcb (some (offered mem first rest)) written

/-- **The whole chain is forwarded**, to the client and to COM2, and nothing outside its payloads is
read. -/
structure Forwarded (s : Server) (pcb : Ptr) (mem : ℕ → UInt8) (first : PoolPbuf)
    (rest : List PoolPbuf) (written : Err) : Prop where
  log : (onTcpServerRecvChain s pcb mem first rest written).log =
    s.log ++ recvEffects s pcb (contents mem (first :: rest))
  reads : ∀ a ∈ reads first rest, ∃ p ∈ first :: rest, a ∈ p.bytes

variable {first : PoolPbuf} {rest : List PoolPbuf} {mem : ℕ → UInt8}

theorem mem_bytes {p : PoolPbuf} {a : ℕ} :
    a ∈ p.bytes ↔ p.payload ≤ a ∧ a < p.payload + p.len := by
  rw [PoolPbuf.bytes, List.mem_range'_1]

theorem mem_reads {a : ℕ} : a ∈ reads first rest ↔
    first.payload ≤ a ∧ a < first.payload + totLen (first :: rest) := by
  rw [reads, List.mem_range'_1]

theorem totLen_cons (p : PoolPbuf) (chain : List PoolPbuf) :
    totLen (p :: chain) = p.len + totLen chain := by
  rw [totLen, List.map_cons, List.sum_cons]
  rfl

theorem length_contents (mem : ℕ → UInt8) (chain : List PoolPbuf) :
    (contents mem chain).length = totLen chain := by
  simp [contents, totLen, PoolPbuf.bytes, List.length_flatten, Function.comp_def]

/-- **The byte behind the first payload** is in no payload of the chain. -/
theorem behind_first (h : WellFormed (first :: rest)) :
    ∀ p ∈ first :: rest, first.payload + first.len ∉ p.bytes := by
  have hfirst := h.inside first List.mem_cons_self
  intro p hp hbyte
  obtain ⟨hle, hlt⟩ := mem_bytes.mp hbyte
  have hin := h.inside p hp
  unfold PoolPbuf.payload at hle hlt
  rcases List.mem_cons.mp hp with rfl | hp
  · omega
  · rcases List.rel_of_pairwise_cons h.apart hp with hapart | hapart
    · -- the `struct pbuf` lies between the two payloads
      simp only [elementSize, sizeofStructPbuf] at *
      omega
    · simp only [elementSize, sizeofStructPbuf] at *
      omega

/-- Exactly the data of the chain is read. -/
def Exact (mem : ℕ → UInt8) (first : PoolPbuf) (rest : List PoolPbuf) : Prop :=
  offered mem first rest = contents mem (first :: rest) ∧
    ∀ a ∈ reads first rest, ∃ p ∈ first :: rest, a ∈ p.bytes

theorem exact_iff (h : WellFormed (first :: rest)) :
    Exact mem first rest ↔ first.len = totLen (first :: rest) := by
  constructor
  · rintro ⟨-, hreads⟩
    by_contra hne
    have hlt : first.len < totLen (first :: rest) := by
      rw [totLen_cons] at hne ⊢
      omega
    obtain ⟨p, hp, hbyte⟩ := hreads (first.payload + first.len) (mem_reads.mpr (by omega))
    exact behind_first h p hp hbyte
  · intro hlen
    have hreads : reads first rest = first.bytes := by rw [reads, ← hlen, PoolPbuf.bytes]
    have hrest : contents mem rest = [] := by
      rw [totLen_cons] at hlen
      exact List.length_eq_zero_iff.mp (by rw [length_contents]; omega)
    refine ⟨?_, fun a ha => ⟨first, List.mem_cons_self, hreads ▸ ha⟩⟩
    have hcons : contents mem (first :: rest) = first.bytes.map mem ++ contents mem rest := rfl
    rw [offered, hreads, hcons, hrest, List.append_nil]

/-- The entries of the log tell the data. -/
theorem recvEffects_inj {s : Server} {pcb : Ptr} {data data' : List UInt8}
    (h : recvEffects s pcb data = recvEffects s pcb data') : data = data' := by
  have hlast := congrArg List.getLast? h
  unfold recvEffects at hlast
  rw [List.getLast?_concat, List.getLast?_concat] at hlast
  exact Effect.sendUartData.inj (Option.some.inj hlast)

theorem forwarded_iff_exact (s : Server) (pcb : Ptr) (written : Err) :
    Forwarded s pcb mem first rest written ↔ Exact mem first rest := by
  have hlog : (onTcpServerRecvChain s pcb mem first rest written).log =
      s.log ++ recvEffects s pcb (offered mem first rest) := by
    rw [onTcpServerRecvChain, onTcpServerRecv_data]
  constructor
  · rintro ⟨heq, hreads⟩
    exact ⟨recvEffects_inj (List.append_cancel_left (hlog.symm.trans heq)), hreads⟩
  · rintro ⟨heq, hreads⟩
    exact ⟨by rw [hlog, heq], hreads⟩

/-- **A chain of pbufs.** The whole chain is forwarded, and nothing outside its payloads is read, if
and only if the first pbuf holds all of the data. -/
theorem forwarded_iff (h : WellFormed (first :: rest)) (mem : ℕ → UInt8) (s : Server) (pcb : Ptr)
    (written : Err) :
    Forwarded s pcb mem first rest written ↔ first.len = totLen (first :: rest) :=
  (forwarded_iff_exact s pcb written).trans (exact_iff h)

/-- **A frame of `length` bytes**, of which `hidden` have been hidden in the first pbuf: the data of
the chain that `pbuf_alloc` has made for it is read if the frame fits one pbuf. -/
theorem exact_frame_iff {avail length hidden : ℕ} (h : WellFormed (first :: rest))
    (halloc : pbufAlloc avail length = some ((first.len + hidden) :: rest.map PoolPbuf.len)) :
    Exact mem first rest ↔ length ≤ pbufPoolBufsize := by
  have hsum := pbufAlloc_sum halloc
  have hfirst : first.len + hidden = min length pbufPoolBufsize := by
    cases avail with
    | zero => exact absurd halloc nofun
    | succ avail =>
      obtain ⟨lens, -, heq⟩ := Option.map_eq_some_iff.mp halloc
      exact (List.cons.inj heq).1.symm
  have htotal : totLen (first :: rest) + hidden = length := by
    rw [totLen_cons, ← hsum, List.sum_cons, totLen]
    omega
  rw [exact_iff h]
  omega

/-- A segment of three bytes, behind 54 bytes of headers, from a client that has connected. -/
theorem forwarded_one_pbuf : ∃ s, run step Server.init (handshake 1025) = some s ∧
    s.connectFlag = true ∧
    Forwarded s ⟨9, 1⟩ (fun a => UInt8.ofNat a) (.ofElement 0 0 54 3) [] .errOk := by
  obtain ⟨s, hr, hflag⟩ := Option.map_eq_some_iff.mp
    (show (run step Server.init (handshake 1025)).map (fun s => s.connectFlag) = some true by
      decide +kernel)
  have hwf : WellFormed [.ofElement 0 0 54 3] := ⟨by decide, List.pairwise_singleton _ _⟩
  exact ⟨s, hr, hflag, (forwarded_iff hwf _ _ _ _).mpr (by decide)⟩

/-- A memory in which the bytes of a chain are 1 and all others 0. -/
def memOf (chain : List PoolPbuf) (a : ℕ) : UInt8 :=
  if chain.any fun p => decide (p.payload ≤ a ∧ a < p.payload + p.len) then 1 else 0

/-- **Memory behind the first pbuf is forwarded**: of a segment of 600 bytes in two pbufs the client
and COM2 get 458 bytes, and then 142 bytes from the next element of the pool. -/
theorem forwarded_two_pbufs : ∃ s, ∃ first second : PoolPbuf,
    WellFormed [first, second] ∧ totLen [first, second] = 600 ∧
    run step Server.init (handshake 1025) = some s ∧
    (onTcpServerRecvChain s ⟨9, 1⟩ (memOf [first, second]) first [second] .errOk).log =
      s.log ++ recvEffects s ⟨9, 1⟩ (List.replicate 458 1 ++ List.replicate 142 0) ∧
    contents (memOf [first, second]) [first, second] = List.replicate 600 1 ∧
    ¬ Forwarded s ⟨9, 1⟩ (memOf [first, second]) first [second] .errOk := by
  obtain ⟨s, hr, -⟩ := Option.map_eq_some_iff.mp
    (show (run step Server.init (handshake 1025)).map (fun s => s.connectFlag) = some true by
      decide +kernel)
  have hoffered : offered (memOf [.ofElement 0 1 54 458, .ofElement 0 0 0 142])
      (.ofElement 0 1 54 458) [.ofElement 0 0 0 142] =
        List.replicate 458 1 ++ List.replicate 142 0 := by decide +kernel
  have hcontents : contents (memOf [.ofElement 0 1 54 458, .ofElement 0 0 0 142])
      [.ofElement 0 1 54 458, .ofElement 0 0 0 142] = List.replicate 600 1 := by decide +kernel
  have hwf : WellFormed [.ofElement 0 1 54 458, .ofElement 0 0 0 142] :=
    ⟨by decide, List.pairwise_pair.mpr (PoolPbuf.apart_ofElement (by decide) _ _ _ _ _)⟩
  refine ⟨s, .ofElement 0 1 54 458, .ofElement 0 0 0 142, hwf, by decide, hr, ?_, hcontents,
    fun h => ?_⟩
  · rw [onTcpServerRecvChain, hoffered, onTcpServerRecv_data]
  · have hexact := (forwarded_iff_exact s ⟨9, 1⟩ .errOk).mp h
    have heq := hoffered.symm.trans (hexact.1.trans hcontents)
    exact absurd heq (by decide +kernel)

end Stm32TcpServer.Tcp.PbufChain
