import Stm32TcpServer.Uart.MainLoop

/-! # From the UART to `tcp_write`

`main` puts what a poll returns at the front of `data` and passes `strlen((char*)data)` bytes on,
not the count that the poll has returned. The array keeps the rest of earlier bursts, and before
them what was on the stack.

`forward_iff`: each iteration passes exactly the bytes it has read if and only if no burst holds a
NUL, no burst is shorter than an earlier one, and behind each burst the array initially held a NUL
(`Terminated`). -/

namespace Stm32TcpServer.Uart.Forward

open Stm32TcpServer.Lib.Runs
open Stm32TcpServer.Uart.Com2Rx Stm32TcpServer.Uart.MainLoop

/-- The array `data` after a poll has returned `b`. -/
def overlay (data b : List UInt8) : List UInt8 := b ++ data.drop b.length

/-- What is passed to `tcp_write` after each of the polls that return `bs`. -/
def offers : List UInt8 → List (List UInt8) → List (Option (List UInt8))
  | _, [] => []
  | data, b :: bs => offer (overlay data b) :: offers (overlay data b) bs

/-- **Behind each burst there is a NUL, and none in it**: `data` is what the array holds at first. -/
structure Terminated (data : List UInt8) (bs : List (List UInt8)) : Prop where
  free : ∀ b ∈ bs, 0 ∉ b
  mono : bs.Pairwise fun a b => a.length ≤ b.length
  nul : ∀ b ∈ bs, data.getD b.length 0 = 0

/-! ### `strlen` -/

theorem strlen_eq_some_iff {s : List UInt8} {n : ℕ} :
    strlen s = some n ↔ n < s.length ∧ s.getD n 0 = 0 ∧ 0 ∉ s.take n := by
  rw [strlen, List.findIdx?_eq_some_iff_getElem]
  constructor
  · rintro ⟨h, h0, hn⟩
    refine ⟨h, by rw [List.getD_eq_getElem _ _ h]; simpa using h0, fun hm => ?_⟩
    obtain ⟨j, hj, hj0⟩ := List.mem_take_iff_getElem.mp hm
    exact hn j (by omega) (by simp [hj0])
  · rintro ⟨h, h0, hn⟩
    refine ⟨h, by rw [List.getD_eq_getElem _ _ h] at h0; simp [h0], fun j hj hj0 => ?_⟩
    refine hn (List.mem_take_iff_getElem.mpr ⟨j, by omega, ?_⟩)
    simpa using hj0

theorem length_overlay {data b : List UInt8} (h : b.length < data.length) :
    (overlay data b).length = data.length := by
  rw [overlay, List.length_append, List.length_drop]; omega

theorem getD_overlay (data b : List UInt8) (n : ℕ) :
    (overlay data b).getD n 0 = if n < b.length then b.getD n 0 else data.getD n 0 := by
  rw [overlay]
  split_ifs with h
  · rw [List.getD_append _ _ _ _ h]
  · rw [List.getD_append_right _ _ _ _ (by omega), List.getD_eq_getElem?_getD,
      List.getElem?_drop, ← List.getD_eq_getElem?_getD]
    congr 1
    omega

/-- **One iteration** passes on the bytes it has read exactly if they hold no NUL and one follows. -/
theorem offer_eq_iff {data b : List UInt8} (h : b.length < data.length) :
    offer (overlay data b) = some b ↔ 0 ∉ b ∧ data.getD b.length 0 = 0 := by
  have hlen := length_overlay h
  have htake : (overlay data b).take b.length = b := by rw [overlay, List.take_left]
  have hget : (overlay data b).getD b.length 0 = data.getD b.length 0 := by
    rw [getD_overlay, if_neg (Nat.lt_irrefl _)]
  rw [offer, Option.map_eq_some_iff]
  constructor
  · rintro ⟨n, hn, hb⟩
    obtain ⟨hlt, h0, hfree⟩ := strlen_eq_some_iff.mp hn
    have hnb : n = b.length := by
      have := congrArg List.length hb
      rw [List.length_take] at this
      omega
    subst hnb
    exact ⟨by rwa [hb] at hfree, by rwa [hget] at h0⟩
  · rintro ⟨hfree, h0⟩
    refine ⟨b.length, strlen_eq_some_iff.mpr ⟨by omega, by rw [hget]; exact h0, ?_⟩, htake⟩
    rw [htake]
    exact hfree

/-! ### Sequences of bursts -/

/-- What the first burst leaves in the array is a NUL behind a later one only if that is not
shorter. -/
theorem nul_overlay_iff {data b : List UInt8} (hb : 0 ∉ b) (n : ℕ) :
    (overlay data b).getD n 0 = 0 ↔ b.length ≤ n ∧ data.getD n 0 = 0 := by
  rw [getD_overlay]
  split_ifs with h
  · refine ⟨fun h0 => absurd ?_ hb, fun h' => absurd h (Nat.not_lt.mpr h'.1)⟩
    rw [List.getD_eq_getElem _ _ h] at h0
    exact h0 ▸ List.getElem_mem h
  · simp [Nat.not_lt.mp h]

theorem offers_eq_iff : ∀ (bs : List (List UInt8)) (data : List UInt8),
    (∀ b ∈ bs, b.length < data.length) → (offers data bs = bs.map some ↔ Terminated data bs)
  | [], data, _ => by
    refine ⟨fun _ => ⟨?_, List.Pairwise.nil, ?_⟩, fun _ => rfl⟩ <;> simp
  | b :: bs, data, h => by
    have hb := h b List.mem_cons_self
    have ih := offers_eq_iff bs (overlay data b) fun c hc => by
      rw [length_overlay hb]
      exact h c (List.mem_cons_of_mem _ hc)
    rw [offers, List.map_cons, List.cons.injEq, offer_eq_iff hb, ih]
    constructor
    · rintro ⟨⟨hfree, hnul⟩, ht⟩
      refine ⟨List.forall_mem_cons.mpr ⟨hfree, ht.free⟩, List.pairwise_cons.mpr ⟨fun c hc => ?_,
        ht.mono⟩, List.forall_mem_cons.mpr ⟨hnul, fun c hc => ?_⟩⟩
      · exact ((nul_overlay_iff hfree _).mp (ht.nul c hc)).1
      · exact ((nul_overlay_iff hfree _).mp (ht.nul c hc)).2
    · intro ht
      obtain ⟨hfree, hfree'⟩ := List.forall_mem_cons.mp ht.free
      obtain ⟨hle, hmono⟩ := List.pairwise_cons.mp ht.mono
      obtain ⟨hnul, hnul'⟩ := List.forall_mem_cons.mp ht.nul
      exact ⟨⟨hfree, hnul⟩, hfree', hmono, fun c hc =>
        (nul_overlay_iff hfree _).mpr ⟨hle c hc, hnul' c hc⟩⟩

theorem offers_append (data : List UInt8) (b : List UInt8) : ∀ bs : List (List UInt8),
    offers data (bs ++ [b]) = offers data bs ++ [offer (overlay (bs.foldl overlay data) b)] := by
  intro bs
  induction bs generalizing data with
  | nil => rfl
  | cons c bs ih => rw [List.cons_append, offers, ih, offers]; rfl

/-! ### Runs of the main loop -/

/-- What the run has left in the array and passed on, in terms of what the polls have returned. -/
structure Inv (data : List UInt8) (l : Loop) (m : Mailbox) : Prop where
  sim : Sim l m
  data_eq : l.data = l.reads.foldl overlay data
  offered : l.offered = offers data l.reads
  short : ∀ b ∈ l.reads, b.length ≤ uartRecvBuf

theorem inv_step {data : List UInt8} {l : Loop} {m m' : Mailbox} {e : Event} (h : Inv data l m)
    (hs : m.step e = some m') : Inv data (exec l e) m' := by
  have hsim := sim_step h.sim hs
  cases e with
  | byte b => exact ⟨hsim, h.data_eq, h.offered, h.short⟩
  | idle => exact ⟨hsim, h.data_eq, h.offered, h.short⟩
  | poll =>
    have hit := iterate_eq h.sim
    rw [exec] at hsim ⊢
    split_ifs at hit with hm
    · obtain ⟨hsim', hdata, hoff⟩ := hit
      have hreads : (iterate l).reads = l.reads ++ [m.content] := by
        rw [hsim'.reads, h.sim.reads, Mailbox.poll, if_pos hm]
      refine ⟨hsim, ?_, ?_, fun b hb => ?_⟩
      · rw [hdata, hreads, List.foldl_append, ← h.data_eq]; rfl
      · rw [hoff, hreads, offers_append, h.offered, ← h.data_eq]; rfl
      · rw [hreads, List.mem_append, List.mem_singleton] at hb
        rcases hb with hb | rfl
        · exact h.short b hb
        · rw [← h.sim.stored, h.sim.receiving.length_stored]
          exact Nat.sub_le _ _
    · rw [hit] at hsim ⊢
      exact ⟨hsim, h.data_eq, h.offered, h.short⟩

theorem inv_run {data : List UInt8} {es : List Event} {l : Loop} {m m' : Mailbox}
    (h : Inv data l m) (hr : run Mailbox.step m es = some m') : Inv data (es.foldl exec l) m' :=
  simulation exec (Inv data) (fun _ _ _ _ h hs => inv_step h hs) h hr

theorem inv_init {data : List UInt8} (hd : data.length = dataSize) :
    Inv data (Loop.init data) Mailbox.init :=
  ⟨sim_init (by rw [hd]; decide), rfl, rfl, by simp [Loop.init]⟩

/-- **Forwarding.** Whatever `data` holds at first, each iteration of the main loop that reads bytes
offers exactly these to `tcp_write` if and only if no burst holds a NUL, none is shorter than an
earlier one, and `data` held a NUL behind each of them; the bursts are what the events put into the
mailbox. -/
theorem forward_iff {data : List UInt8} {es : List Event} {m : Mailbox}
    (hd : data.length = dataSize) (hr : run Mailbox.step Mailbox.init es = some m) :
    (es.foldl exec (Loop.init data)).offered =
        (es.foldl exec (Loop.init data)).reads.map some ↔ Terminated data m.reads := by
  have h := inv_run (inv_init hd) hr
  rw [h.offered, ← h.sim.reads]
  refine offers_eq_iff _ _ fun b hb => ?_
  have hle := h.short b hb
  rw [hd]
  exact Nat.lt_of_le_of_lt hle (by decide)

/-- An array of zero bytes. -/
def zeroData : List UInt8 := List.replicate dataSize 0

theorem length_zeroData : zeroData.length = dataSize := List.length_replicate ..

/-- The bursts `x` and `abc`, each polled after its idle interrupt. -/
def runGrowing : List Event :=
  [.byte 120, .idle, .poll, .byte 97, .byte 98, .byte 99, .idle, .poll]

theorem forward_growing : (runGrowing.foldl exec (Loop.init zeroData)).offered =
      (runGrowing.foldl exec (Loop.init zeroData)).reads.map some ↔
    Terminated zeroData [[120], [97, 98, 99]] :=
  forward_iff (m := { flag := false, content := [], reads := [[120], [97, 98, 99]] })
    length_zeroData (by decide)

/-- The bursts `abc` and `x`. -/
def runShrinking : List Event :=
  [.byte 97, .byte 98, .byte 99, .idle, .poll, .byte 120, .idle, .poll]

/-- **More than the burst is passed on**: after `abc` the burst `x` is passed on as `xbc`. -/
theorem burst_residue_sent :
    (runShrinking.foldl exec (Loop.init zeroData)).reads = [[97, 98, 99], [120]] ∧
    (runShrinking.foldl exec (Loop.init zeroData)).offered =
      [some [97, 98, 99], some [120, 98, 99]] := by
  have hr : run Mailbox.step Mailbox.init runShrinking =
      some { flag := false, content := [], reads := [[97, 98, 99], [120]] } := by decide
  have h := inv_run (inv_init length_zeroData) hr
  refine ⟨h.sim.reads, ?_⟩
  rw [h.offered, h.sim.reads]
  decide +kernel

end Stm32TcpServer.Uart.Forward
