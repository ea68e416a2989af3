import Mathlib.Data.List.Nodup
import Mathlib.Logic.Function.Basic

/-! # The pcbs of the connections (tcp.c, tcp_in.c)

The pool `MEMP_TCP_PCB` with its free list, the list `tcp_active_pcbs`, and the functions that move
a pcb between them. The application never closes a connection, so no pcb comes into a state behind
`CLOSE_WAIT`, and `tcp_tw_pcbs` stays empty.

A pointer to a pcb carries a stamp that is not in the memory: it tells the connections apart that
have had their pcb at the same address.

* `Wf`: no pcb is linked twice, or linked and free.
* `tcpAlloc_spec`, `tcpListenInput_spec`, `tcpSlowtmr_spec`: what lwIP keeps of `Wf` and `Once`, and
  which pcbs it deletes. -/

namespace Stm32TcpServer.Lwip.TcpPcb

/-- `MEMP_NUM_TCP_PCB`. -/
abbrev mempNumTcpPcb : ℕ := 10

/-- The address of an element of the pool `MEMP_TCP_PCB`. -/
abbrev Addr := Fin mempNumTcpPcb

/-- `enum tcp_state`, with the states that a pcb of this program can be in. -/
inductive State
  | closed
  | synRcvd
  | established
  | closeWait
  deriving DecidableEq, Repr

/-- `TCP_PRIO_MIN`. -/
abbrev tcpPrioMin : ℕ := 1
/-- `TCP_PRIO_NORMAL`. -/
abbrev tcpPrioNormal : ℕ := 64
/-- `TCP_PRIO_MAX`. -/
abbrev tcpPrioMax : ℕ := 127

/-- `struct tcp_pcb`. -/
structure Pcb where
  state : State
  prio : ℕ
  /-- `tcp_ticks` at the last activity. -/
  tmr : BitVec 32
  localPort : ℕ
  remoteIp : BitVec 32
  remotePort : ℕ

/-- A pointer to a pcb, with the number of the allocation that it stems from. -/
structure Ptr where
  addr : Addr
  stamp : ℕ
  deriving DecidableEq, Repr

/-- **The pcbs of lwIP.** -/
structure Tcp where
  pcb : Addr → Pcb
  /-- `tcp_active_pcbs`. -/
  active : List Ptr
  /-- The free list of `MEMP_TCP_PCB`. -/
  free : List Addr
  tcpTicks : BitVec 32
  /-- How many pcbs have been allocated so far. -/
  allocs : ℕ
  /-- The pcbs that `tcp_abandon` has been called with so far. -/
  aborted : List Ptr

/-- The memory of an element after `memset(pcb, 0, sizeof(struct tcp_pcb))`. -/
def Pcb.zero : Pcb where
  state := .closed
  prio := 0
  tmr := 0
  localPort := 0
  remoteIp := 0
  remotePort := 0

/-- The state after `memp_init` and `InitTcpServer`, which gives the pcb of `tcp_new` back in
`tcp_listen`. -/
def Tcp.init : Tcp where
  pcb _ := Pcb.zero
  active := []
  free := (List.finRange mempNumTcpPcb).reverse
  tcpTicks := 0
  allocs := 1
  aborted := []

/-- A write to the pcb at `a`. -/
def Tcp.write (t : Tcp) (a : Addr) (pcb : Pcb) : Tcp := { t with pcb := Function.update t.pcb a pcb }

/-! ### The code -/

/-- `tcp_pcb_remove(&tcp_active_pcbs, pcb); memp_free(MEMP_TCP_PCB, pcb);` -/
def Tcp.remove (t : Tcp) (pcb : Ptr) : Tcp :=
  { t.write pcb.addr { t.pcb pcb.addr with state := .closed } with
    active := t.active.filter fun p => p.addr ≠ pcb.addr
    free := pcb.addr :: t.free }

/-- **`tcp_abandon(pcb, reset)`**, for an allocated pcb. The application has registered no error
callback, and the RST that may be sent does not touch the pcbs. -/
def tcpAbandon (t : Tcp) (pcb : Ptr) : Tcp :=
  { t.remove pcb with aborted := t.aborted ++ [pcb] }

/-- The loop of `tcp_kill_prio` over `tcp_active_pcbs`, with its local variables. -/
def oldest (t : Tcp) (prio : ℕ) : List Ptr → ℕ → BitVec 32 → Option Ptr → Option Ptr
  | [], _, _, inactive => inactive
  | p :: pcbs, mprio, inactivity, inactive =>
    let pcb := t.pcb p.addr
    if pcb.prio ≤ prio ∧ pcb.prio ≤ mprio ∧ inactivity ≤ t.tcpTicks - pcb.tmr then
      oldest t prio pcbs pcb.prio (t.tcpTicks - pcb.tmr) (some p)
    else oldest t prio pcbs mprio inactivity inactive

/-- The pcb that `tcp_kill_prio(prio)` aborts. -/
def killed (t : Tcp) (prio : ℕ) : Option Ptr := oldest t prio t.active tcpPrioMax 0 none

/-- **`tcp_kill_prio(prio)`.** -/
def tcpKillPrio (t : Tcp) (prio : ℕ) : Tcp := (killed t prio).elim t (tcpAbandon t)

/-- `memp_malloc(MEMP_TCP_PCB)`. -/
def mempMalloc (t : Tcp) : Option (Tcp × Addr) :=
  match t.free with
  | [] => none
  | a :: free => some ({ t with free := free }, a)

/-- **`tcp_alloc(prio)`.** There is no pcb in TIME-WAIT that `tcp_kill_timewait` could kill. -/
def tcpAlloc (t : Tcp) (prio : ℕ) : Option (Tcp × Ptr) :=
  ((mempMalloc t).or (mempMalloc (tcpKillPrio t prio))).map fun (t, a) =>
    ({ t.write a { Pcb.zero with prio := prio, tmr := t.tcpTicks } with allocs := t.allocs + 1 },
      ⟨a, t.allocs⟩)

/-- `TCP_REG_ACTIVE(npcb)`. -/
def tcpRegActive (t : Tcp) (npcb : Ptr) : Tcp := { t with active := npcb :: t.active }

/-- `TCP_SYN_RCVD_TIMEOUT / TCP_SLOW_INTERVAL`. -/
abbrev synRcvdTimeout : BitVec 32 := 40

/-- `pcb_remove` in the loop of `tcp_slowtmr`; `maxRtx` are the pcbs whose `nrtx` is `TCP_MAXRTX`. -/
def expired (t : Tcp) (maxRtx : Addr → Bool) (p : Ptr) : Bool :=
  maxRtx p.addr ||
    ((t.pcb p.addr).state = .synRcvd && synRcvdTimeout < t.tcpTicks - (t.pcb p.addr).tmr)

/-- **`tcp_slowtmr()`**: the expired pcbs are unlinked and freed, one after the other. -/
def tcpSlowtmr (t : Tcp) (maxRtx : Addr → Bool) : Tcp :=
  let t := { t with tcpTicks := t.tcpTicks + 1 }
  { t with
    active := t.active.filter fun p => !expired t maxRtx p
    free := ((t.active.filter fun p => expired t maxRtx p).map Ptr.addr).reverse ++ t.free }

/-- **A segment**, with the results of the checks of its sequence numbers. -/
structure Segment where
  srcIp : BitVec 32
  src : ℕ
  dest : ℕ
  syn : Bool
  ack : Bool
  rst : Bool
  /-- `TCP_SEQ_BETWEEN(seqno, pcb->rcv_nxt, pcb->rcv_nxt + pcb->rcv_wnd)`. -/
  acceptable : Bool
  /-- `TCP_SEQ_BETWEEN(ackno, pcb->lastack + 1, pcb->snd_nxt)`. -/
  expectedAck : Bool
  /-- `recv_data` after `tcp_receive`: the `tot_len` bytes from the payload of the first pbuf on. -/
  recvData : Option (List UInt8)
  /-- `TF_GOT_FIN` in `recv_flags` after `tcp_receive`. -/
  gotFin : Bool
  /-- `tcp_enqueue_flags(npcb, TCP_SYN | TCP_ACK)` succeeds. -/
  enqueued : Bool

/-- The segment asks for a connection: `TCP_SYN` without `TCP_RST` and `TCP_ACK`. -/
def Segment.opens (seg : Segment) : Bool := !seg.rst && !seg.ack && seg.syn

/-- The test of `tcp_input` whether the segment is for the connection. -/
def Segment.isFor (seg : Segment) (pcb : Pcb) : Bool :=
  pcb.remotePort = seg.src && pcb.localPort = seg.dest && pcb.remoteIp = seg.srcIp

/-- `tcp_input` moves the pcb that a segment is for to the front of `tcp_active_pcbs`. -/
def moveToFront (t : Tcp) (pcb : Ptr) : Tcp :=
  { t with active := pcb :: t.active.filter fun p => p.addr ≠ pcb.addr }

/-- **`tcp_listen_input(pcb)`**, for the listening pcb of the server at `localPort`, which has the
priority of `tcp_new`. -/
def tcpListenInput (t : Tcp) (localPort : ℕ) (seg : Segment) : Tcp :=
  if seg.opens then
    match tcpAlloc t tcpPrioNormal with
    | none => t
    | some (t, npcb) =>
      let t := tcpRegActive (t.write npcb.addr { t.pcb npcb.addr with
        state := .synRcvd
        localPort := localPort
        remoteIp := seg.srcIp
        remotePort := seg.src }) npcb
      if seg.enqueued then t else tcpAbandon t npcb
  else t

/-! ### Well-formed lists -/

/-- **Each pcb is linked once, or free once, and not both**; its stamp is that of a past allocation. -/
structure Wf (t : Tcp) : Prop where
  active : (t.active.map Ptr.addr).Nodup
  free : t.free.Nodup
  disjoint : ∀ p ∈ t.active, p.addr ∉ t.free
  stamp : ∀ p ∈ t.active, p.stamp < t.allocs

/-- No pcb has been aborted twice, and none that has been aborted is linked. -/
structure Once (t : Tcp) : Prop where
  nodup : t.aborted.Nodup
  gone : ∀ p ∈ t.aborted, p ∉ t.active
  stamp : ∀ p ∈ t.aborted, p.stamp < t.allocs

variable {t t' : Tcp} {p q : Ptr}

theorem wf_init : Wf Tcp.init where
  active := List.nodup_nil
  free := by decide
  disjoint _ h := absurd h List.not_mem_nil
  stamp _ h := absurd h List.not_mem_nil

theorem once_init : Once Tcp.init :=
  ⟨List.nodup_nil, List.forall_mem_nil _, List.forall_mem_nil _⟩

theorem Wf.inj (h : Wf t) (hp : p ∈ t.active) (hq : q ∈ t.active) (heq : p.addr = q.addr) : p = q :=
  List.inj_on_of_nodup_map h.active hp hq heq

theorem mem_remove : q ∈ (t.remove p).active ↔ q ∈ t.active ∧ q.addr ≠ p.addr := by
  simp [Tcp.remove, List.mem_filter]

theorem Wf.mem_remove (h : Wf t) (hp : p ∈ t.active) :
    q ∈ (t.remove p).active ↔ q ∈ t.active ∧ q ≠ p := by
  rw [TcpPcb.mem_remove]
  refine and_congr_right fun hq => not_congr ⟨h.inj hq hp, fun heq => by rw [heq]⟩

theorem Wf.remove (h : Wf t) (hp : ∃ q ∈ t.active, q.addr = p.addr) : Wf (t.remove p) := by
  obtain ⟨q, hq, heq⟩ := hp
  have hsub : ((t.remove p).active.map Ptr.addr).Sublist (t.active.map Ptr.addr) :=
    List.filter_sublist.map _
  refine ⟨h.active.sublist hsub, ?_, fun r hr => ?_, fun r hr => ?_⟩
  · exact List.nodup_cons.mpr ⟨by rw [← heq]; exact h.disjoint q hq, h.free⟩
  · obtain ⟨hr, hne⟩ := TcpPcb.mem_remove.mp hr
    exact fun hmem => (List.mem_cons.mp hmem).elim hne (h.disjoint r hr)
  · exact h.stamp r (TcpPcb.mem_remove.mp hr).1

/-- **`tcp_abandon`** of a pointer whose address is that of a linked pcb. -/
theorem Wf.tcpAbandon (h : Wf t) (hp : ∃ q ∈ t.active, q.addr = p.addr) : Wf (tcpAbandon t p) :=
  let hr := h.remove hp
  ⟨hr.active, hr.free, hr.disjoint, hr.stamp⟩

/-- A linked pcb that is aborted has not been aborted before. -/
theorem Once.tcpAbandon (h : Wf t) (ho : Once t) (hp : p ∈ t.active) : Once (tcpAbandon t p) := by
  refine ⟨?_, fun r hmem => ?_, fun r hmem => ?_⟩
  · refine List.Nodup.append ho.nodup (List.nodup_singleton p) fun r hr hr' => ?_
    rw [List.mem_singleton.mp hr'] at hr
    exact ho.gone p hr hp
  · show r ∉ (t.remove p).active
    rw [h.mem_remove hp]
    rintro ⟨hr, hne⟩
    rcases List.mem_append.mp hmem with hmem | hmem
    · exact ho.gone r hmem hr
    · exact hne (List.mem_singleton.mp hmem)
  · rcases List.mem_append.mp hmem with hmem | hmem
    · exact ho.stamp r hmem
    · rw [List.mem_singleton.mp hmem]
      exact h.stamp p hp

/-- The two states differ in the contents of the pcbs and the ticks only. -/
structure SameLists (t t' : Tcp) : Prop where
  active : t'.active = t.active
  free : t'.free = t.free
  allocs : t'.allocs = t.allocs
  aborted : t'.aborted = t.aborted

theorem sameLists_write (t : Tcp) (a : Addr) (pcb : Pcb) : SameLists t (t.write a pcb) :=
  ⟨rfl, rfl, rfl, rfl⟩

theorem SameLists.refl (t : Tcp) : SameLists t t := ⟨rfl, rfl, rfl, rfl⟩

theorem SameLists.trans {t'' : Tcp} (h : SameLists t t') (h' : SameLists t' t'') : SameLists t t'' :=
  ⟨h'.active.trans h.active, h'.free.trans h.free, h'.allocs.trans h.allocs,
    h'.aborted.trans h.aborted⟩

theorem SameLists.wf (hl : SameLists t t') (h : Wf t) : Wf t' where
  active := by rw [hl.active]; exact h.active
  free := by rw [hl.free]; exact h.free
  disjoint := by rw [hl.active, hl.free]; exact h.disjoint
  stamp := by rw [hl.active, hl.allocs]; exact h.stamp

theorem SameLists.once (hl : SameLists t t') (ho : Once t) : Once t' where
  nodup := by rw [hl.aborted]; exact ho.nodup
  gone := by rw [hl.aborted, hl.active]; exact ho.gone
  stamp := by rw [hl.aborted, hl.allocs]; exact ho.stamp

theorem mem_moveToFront (h : Wf t) (hp : p ∈ t.active) :
    q ∈ (moveToFront t p).active ↔ q ∈ t.active := by
  have hmem : q ∈ (moveToFront t p).active ↔ q = p ∨ q ∈ (t.remove p).active := List.mem_cons
  rw [hmem, h.mem_remove hp]
  constructor
  · rintro (rfl | ⟨hq, -⟩)
    · exact hp
    · exact hq
  · intro hq
    by_cases heq : q = p
    · exact Or.inl heq
    · exact Or.inr ⟨hq, heq⟩

theorem Wf.moveToFront (h : Wf t) (hp : p ∈ t.active) : Wf (moveToFront t p) := by
  refine ⟨?_, h.free, fun q hq => h.disjoint q ((mem_moveToFront h hp).mp hq),
    fun q hq => h.stamp q ((mem_moveToFront h hp).mp hq)⟩
  refine List.nodup_cons.mpr ⟨fun hmem => ?_, h.active.sublist (List.filter_sublist.map _)⟩
  obtain ⟨q, hq, heq⟩ := List.mem_map.mp hmem
  exact (TcpPcb.mem_remove.mp (show q ∈ (t.remove p).active from hq)).2 heq

theorem Once.moveToFront (h : Wf t) (ho : Once t) (hp : p ∈ t.active) : Once (moveToFront t p) :=
  ⟨ho.nodup, fun q hq hmem => ho.gone q hq ((mem_moveToFront h hp).mp hmem), ho.stamp⟩

theorem mem_of_oldest (t : Tcp) (prio : ℕ) : ∀ {pcbs : List Ptr} {mprio : ℕ} {inactivity : BitVec 32}
    {inactive : Option Ptr}, oldest t prio pcbs mprio inactivity inactive = some p →
      p ∈ pcbs ∨ inactive = some p
  | [], _, _, _, h => Or.inr h
  | q :: pcbs, mprio, inactivity, inactive, h => by
    rw [oldest] at h
    split_ifs at h
    · rcases mem_of_oldest t prio h with hmem | heq
      · exact Or.inl (List.mem_cons_of_mem _ hmem)
      · exact Or.inl (by rw [← Option.some.inj heq]; exact List.mem_cons_self)
    · exact (mem_of_oldest t prio h).imp_left (List.mem_cons_of_mem _)

theorem mem_of_killed {prio : ℕ} (h : killed t prio = some p) : p ∈ t.active :=
  (mem_of_oldest t prio h).resolve_right (Option.some_ne_none p ∘ Eq.symm)

/-! ### What lwIP deletes -/

/-- The pcb that `tcp_alloc(prio)` kills. -/
def victim (t : Tcp) (prio : ℕ) : Option Ptr := if t.free.isEmpty then killed t prio else none

/-- **What `tcp_alloc(prio)` has done** when it has returned `p`. -/
structure Allocated (t t' : Tcp) (prio : ℕ) (p : Ptr) : Prop where
  wf : Wf t'
  once : Once t → Once t' ∧ ∀ q ∈ t'.aborted, q.stamp < t.allocs
  mem : ∀ q, q ∈ t'.active ↔ q ∈ t.active ∧ victim t prio ≠ some q
  unlinked : ∀ q ∈ t'.active, q.addr ≠ p.addr
  used : p.addr ∉ t'.free
  stamp : p.stamp = t.allocs
  allocs : t'.allocs = t.allocs + 1

theorem allocated_take (prio : ℕ) {a : Addr} {free : List Addr} (h : Wf t)
    (hfree : t.free = a :: free) (pcb : Pcb) :
    Allocated t { t.write a pcb with free := free, allocs := t.allocs + 1 } prio ⟨a, t.allocs⟩ := by
  have hnodup := h.free
  rw [hfree, List.nodup_cons] at hnodup
  have hvictim : victim t prio = none := by simp [victim, hfree]
  refine ⟨⟨h.active, hnodup.2, fun r hr hmem => h.disjoint r hr ?_, fun r hr => ?_⟩,
    fun ho => ⟨⟨ho.nodup, ho.gone, fun r hr => ?_⟩, ho.stamp⟩, fun q => ?_,
    fun q hq heq => h.disjoint q hq ?_, hnodup.1, rfl, rfl⟩
  · rw [hfree]
    exact List.mem_cons_of_mem _ hmem
  · exact Nat.lt_succ_of_lt (h.stamp r hr)
  · exact Nat.lt_succ_of_lt (ho.stamp r hr)
  · rw [hvictim]
    exact ⟨fun hq => ⟨hq, by simp⟩, And.left⟩
  · rw [hfree, heq]
    exact List.mem_cons_self

/-- **`tcp_alloc`** returns a pcb that is neither linked nor free. -/
theorem tcpAlloc_spec {prio : ℕ} (h : Wf t) (ha : tcpAlloc t prio = some (t', p)) :
    Allocated t t' prio p := by
  rw [tcpAlloc] at ha
  cases hfree : t.free with
  | cons a free =>
    rw [mempMalloc, hfree] at ha
    obtain ⟨rfl, rfl⟩ := Prod.mk.inj (Option.some.inj ha)
    exact allocated_take prio h hfree _
  | nil =>
    rw [show mempMalloc t = none by rw [mempMalloc, hfree], Option.none_or, tcpKillPrio] at ha
    cases hk : killed t prio with
    | none =>
      rw [hk, Option.elim_none, mempMalloc, hfree] at ha
      exact absurd ha.symm (Option.some_ne_none _)
    | some r =>
      rw [hk, Option.elim_some] at ha
      obtain ⟨rfl, rfl⟩ := Prod.mk.inj (Option.some.inj ha)
      have hr := mem_of_killed hk
      have h₁ := h.tcpAbandon ⟨r, hr, rfl⟩
      have hfree₁ : (tcpAbandon t r).free = r.addr :: t.free := rfl
      have hal := allocated_take prio h₁ hfree₁
        { Pcb.zero with prio := prio, tmr := t.tcpTicks }
      refine ⟨hal.wf, fun ho => hal.once (ho.tcpAbandon h hr), fun q => ?_, hal.unlinked, hal.used,
        hal.stamp, hal.allocs⟩
      rw [victim, hfree, hk]
      exact (h.mem_remove hr).trans (and_congr_right fun _ => by simp [eq_comm])

/-- **The new pcb is set up and linked.** -/
theorem Allocated.reg {prio : ℕ} (hal : Allocated t t' prio p) (pcb : Pcb) :
    Wf (tcpRegActive (t'.write p.addr pcb) p) := by
  refine ⟨?_, hal.wf.free, fun q hq => ?_, fun q hq => ?_⟩
  · refine List.nodup_cons.mpr ⟨fun hmem => ?_, hal.wf.active⟩
    obtain ⟨q, hq, heq⟩ := List.mem_map.mp hmem
    exact hal.unlinked q hq heq
  · rcases List.mem_cons.mp hq with rfl | hq
    · exact hal.used
    · exact hal.wf.disjoint q hq
  · rcases List.mem_cons.mp hq with rfl | hq
    · show q.stamp < t'.allocs
      rw [hal.stamp, hal.allocs]
      exact Nat.lt_succ_self _
    · exact hal.wf.stamp q hq

theorem Allocated.reg_once {prio : ℕ} (hal : Allocated t t' prio p) (pcb : Pcb) (ho : Once t) :
    Once (tcpRegActive (t'.write p.addr pcb) p) := by
  obtain ⟨ho', hlt⟩ := hal.once ho
  refine ⟨ho'.nodup, fun q hq hmem => ?_, ho'.stamp⟩
  rcases List.mem_cons.mp hmem with rfl | hmem
  · have hq := hlt q hq
    rw [hal.stamp] at hq
    exact Nat.lt_irrefl _ hq
  · exact ho'.gone q hq hmem

theorem Allocated.ne {prio : ℕ} (hal : Allocated t t' prio p) (h : Wf t) (hq : q ∈ t.active) :
    q ≠ p := by
  rintro rfl
  have hlt := h.stamp q hq
  rw [hal.stamp] at hlt
  exact Nat.lt_irrefl _ hlt

/-- **`tcp_listen_input`** deletes no pcb but the victim of `tcp_alloc`. -/
theorem tcpListenInput_spec (localPort : ℕ) (seg : Segment) (h : Wf t) :
    Wf (tcpListenInput t localPort seg) ∧ (Once t → Once (tcpListenInput t localPort seg)) ∧
      ∀ q ∈ t.active, q ∈ (tcpListenInput t localPort seg).active ↔
        ¬ (seg.opens ∧ victim t tcpPrioNormal = some q) := by
  unfold tcpListenInput
  by_cases hopens : seg.opens
  · simp only [hopens, if_true, true_and]
    cases ha : tcpAlloc t tcpPrioNormal with
    | none =>
      refine ⟨h, id, fun q hq => iff_of_true hq fun hv => ?_⟩
      -- the memory of a victim would have been returned
      rw [victim] at hv
      split_ifs at hv with hempty
      have hfree : t.free = [] := List.isEmpty_iff.mp hempty
      rw [tcpAlloc, show mempMalloc t = none by rw [mempMalloc, hfree], Option.none_or, tcpKillPrio,
        hv] at ha
      exact absurd ha (Option.some_ne_none _)
    | some r =>
      obtain ⟨t', p⟩ := r
      have hal := tcpAlloc_spec h ha
      dsimp only
      generalize hpcb : (⟨State.synRcvd, _, _, _, _, _⟩ : Pcb) = pcb
      have hmem : ∀ q ∈ t.active, q ∈ (tcpRegActive (t'.write p.addr pcb) p).active ↔
          victim t tcpPrioNormal ≠ some q := fun q hq => by
        refine List.mem_cons.trans ((or_iff_right (hal.ne h hq)).trans ((hal.mem q).trans ?_))
        exact and_iff_right hq
      have hp : p ∈ (tcpRegActive (t'.write p.addr pcb) p).active := List.mem_cons_self
      split_ifs
      · exact ⟨hal.reg pcb, hal.reg_once pcb, hmem⟩
      · refine ⟨(hal.reg pcb).tcpAbandon ⟨p, hp, rfl⟩,
          fun ho => (hal.reg_once pcb ho).tcpAbandon (hal.reg pcb) hp, fun q hq => ?_⟩
        refine ((hal.reg pcb).mem_remove hp).trans (Iff.trans ?_ (hmem q hq))
        exact and_iff_left (hal.ne h hq)
  · simp only [hopens, if_false, Bool.false_eq_true, false_and, not_false_eq_true, iff_true]
    exact ⟨h, id, fun _ hq => hq⟩

/-- **`tcp_slowtmr`** deletes the expired pcbs. -/
theorem tcpSlowtmr_spec (maxRtx : Addr → Bool) (h : Wf t) :
    Wf (tcpSlowtmr t maxRtx) ∧ (Once t → Once (tcpSlowtmr t maxRtx)) ∧
      ∀ q ∈ t.active, q ∈ (tcpSlowtmr t maxRtx).active ↔
        ¬ expired { t with tcpTicks := t.tcpTicks + 1 } maxRtx q := by
  have hmem : ∀ q, q ∈ (tcpSlowtmr t maxRtx).active ↔ q ∈ t.active ∧
      ¬ expired { t with tcpTicks := t.tcpTicks + 1 } maxRtx q := fun q => by
    simp [tcpSlowtmr, List.mem_filter]
  refine ⟨⟨h.active.sublist (List.filter_sublist.map _), ?_, fun q hq hfree => ?_,
    fun q hq => h.stamp q ((hmem q).mp hq).1⟩,
    fun ho => ⟨ho.nodup, fun q hq hact => ho.gone q hq ((hmem q).mp hact).1, ho.stamp⟩,
    fun q hq => (hmem q).trans (and_iff_right hq)⟩
  · refine List.Nodup.append (List.nodup_reverse.mpr (h.active.sublist (List.filter_sublist.map _)))
      h.free fun a ha hfree => ?_
    obtain ⟨q, hq, rfl⟩ := List.mem_map.mp (List.mem_reverse.mp ha)
    exact h.disjoint q (List.mem_filter.mp hq).1 hfree
  · obtain ⟨hact, hne⟩ := (hmem q).mp hq
    rcases List.mem_append.mp hfree with hexp | hfree
    · obtain ⟨r, hr, heq⟩ := List.mem_map.mp (List.mem_reverse.mp hexp)
      obtain ⟨hr, hexp⟩ := List.mem_filter.mp hr
      rw [h.inj hr hact heq] at hexp
      exact hne hexp
    · exact h.disjoint q hact hfree

end Stm32TcpServer.Lwip.TcpPcb
