import Stm32TcpServer.Eth.RxSlots

/-! # Every received frame once and in order

The invariant of the receive interrupt. Between two statements of the handler the DMA may store
bytes and complete descriptors; what the handler relies on (`AtPc`) is about the first completed
descriptor only, and about the frame in work. From `DMARxDescToGet = ...` up to
`frame.descriptor->Status = ...` that descriptor is `frame.descriptor`, before and after it is the
one at `DMARxDescToGet` (`Stmt.head`).

`frames_in_order`: the frames passed to `netif->input` are the stored frames in order, each once and
without its CRC, except those for which `pbuf_alloc` has returned NULL; the CPU neither reads the
buffer nor writes the status of a descriptor that the DMA owns, and never writes through a NULL
descriptor. What is consumed, and which allocations fail, is tied to the ring and to the pool. -/

namespace Stm32TcpServer.Eth.RxFrames

open Stm32TcpServer.Lib.Ring Stm32TcpServer.Lib.Runs Stm32TcpServer.Lib.Window
open Stm32TcpServer.Eth.RxRing hiding Event step
open Stm32TcpServer.Eth.Desc Stm32TcpServer.Eth.RxHandler Stm32TcpServer.Eth.RxSlots
open Stm32TcpServer.Lwip.Pbuf

variable {s : Irq} {q : List Slot} {pc : Stmt}

/-! ### The invariant -/

/-- The `FrameTypeDef` of an error-free frame in the descriptor `d` with the status `w`. -/
def frameAt (d : Desc) (w : Word) : FrameTypeDef where
  length := ethGetDmaRxDescFrameLength w - 4
  buffer := some (buffer1Addr d)
  descriptor := some d

/-- **What holds before each statement**, `get` being `DMARxDescToGet`. -/
def AtPc (get : Desc) (allocs : List Bool) (consumed : ℕ) (arrived : List (List UInt8))
    (q : List Slot) : Stmt → Prop
  | .idle | .getRxPktSize | .clearR | .clearNis => True
  | .ownTest | .goodTest | .framelength => ∃ x q', q = x :: q'
  | .ownReturn => False
  | .buffer framelength => ∃ x q', q = x :: q' ∧ framelength = ethGetDmaRxDescFrameLength x.1 - 4
  | .descriptor framelength buffer => ∃ x q', q = x :: q' ∧
      framelength = ethGetDmaRxDescFrameLength x.1 - 4 ∧ buffer = some (buffer1Addr get)
  | .advance frame => ∃ x q', q = x :: q' ∧ frame = frameAt get x.1
  | .alloc frame => ∃ x q' d, q = x :: q' ∧ frame = frameAt d x.1 ∧ get = buffer2NextDescAddr d
  | .copy frame l done lens => ∃ x q' d, q = x :: q' ∧ frame = frameAt d x.1 ∧
      get = buffer2NextDescAddr d ∧ allocs[consumed]? = some true ∧ done.flatten = x.2.take l ∧
      l + lens.sum = (ethGetDmaRxDescFrameLength x.1).toNat - 4
  | .handBack frame p => ∃ x q' d, q = x :: q' ∧ frame = frameAt d x.1 ∧
      get = buffer2NextDescAddr d ∧ allocs[consumed]? = some p.isSome ∧
      ∀ c, p = some c → c.flatten = stripCrc (frameOf x)
  | .resume p | .input p => ∃ f, arrived[consumed]? = some f ∧ allocs[consumed]? = some p.isSome ∧
      ∀ c, p = some c → c.flatten = stripCrc f

/-- The frames for which `pbuf_alloc` has returned a chain, without their CRC. -/
def passed (frames : List (List UInt8)) (allocs : List Bool) : List (List UInt8) :=
  ((frames.zip allocs).filter Prod.snd).map fun x => stripCrc x.1

theorem passed_succ {frames : List (List UInt8)} {allocs : List Bool} {k : ℕ} {f : List UInt8}
    {b : Bool} (hf : frames[k]? = some f) (hb : allocs[k]? = some b) :
    passed (frames.take (k + 1)) (allocs.take (k + 1)) =
      passed (frames.take k) (allocs.take k) ++ if b then [stripCrc f] else [] := by
  have hk := (List.getElem?_eq_some_iff.mp hf).1
  have hk' := (List.getElem?_eq_some_iff.mp hb).1
  have hlen : (frames.take k).length = (allocs.take k).length := by
    rw [List.length_take, List.length_take]
    omega
  unfold passed
  rw [List.take_add_one, List.take_add_one, hf, hb, List.zip_append hlen, List.filter_append,
    List.map_append]
  cases b <;> rfl

/-- **The invariant**: the ring holds the completed descriptors `q`. -/
structure Inv (s : Irq) (q : List Slot) : Prop where
  ring : Ring s.rx s.filling s.arrived (s.pc.head s.rx.dmaRxDescToGet)
    (s.consumed + s.pc.handedBack) q
  atPc : AtPc s.rx.dmaRxDescToGet s.allocs s.consumed s.arrived q s.pc
  allocs : s.allocs.length = s.consumed + s.pc.allocated
  faults : s.faults = []
  delivered : s.rx.delivered.map List.flatten =
    passed (s.arrived.take s.consumed) (s.allocs.take s.consumed)

theorem inv_init : Inv Irq.init [] :=
  ⟨ring_init, trivial, rfl, rfl, rfl⟩

/-! ### The DMA -/

/-- A frame that arrives behind the others changes nothing for the frame in work. -/
theorem AtPc.arrive {pc : Stmt} {get : Desc} {allocs : List Bool} {consumed : ℕ} (x : Slot)
    (f : List UInt8) (h : AtPc get allocs consumed arrived q pc) :
    AtPc get allocs consumed (arrived ++ [f]) (q ++ [x]) pc := by
  have hcons : ∀ {P : Slot → Prop}, (∃ y q', q = y :: q' ∧ P y) →
      ∃ y q', q ++ [x] = y :: q' ∧ P y := by
    rintro P ⟨y, q', rfl, hy⟩
    exact ⟨y, q' ++ [x], rfl, hy⟩
  have hcons' : ∀ {P : Slot → Desc → Prop}, (∃ y q' d, q = y :: q' ∧ P y d) →
      ∃ y q' d, q ++ [x] = y :: q' ∧ P y d := by
    rintro P ⟨y, q', d, rfl, hy⟩
    exact ⟨y, q' ++ [x], d, rfl, hy⟩
  have hwork : ∀ {P : List UInt8 → Prop}, (∃ g, arrived[consumed]? = some g ∧ P g) →
      ∃ g, (arrived ++ [f])[consumed]? = some g ∧ P g := by
    rintro P ⟨g, hg, hP⟩
    have hlt := (List.getElem?_eq_some_iff.mp hg).1
    exact ⟨g, by rw [List.getElem?_append_left hlt, hg], hP⟩
  cases pc with
  | idle | getRxPktSize | clearR | clearNis => trivial
  | ownReturn => exact h
  | ownTest | goodTest | framelength =>
    obtain ⟨y, q', rfl⟩ := h
    exact ⟨y, q' ++ [x], rfl⟩
  | buffer | descriptor | advance => exact hcons h
  | alloc | copy | handBack => exact hcons' h
  | resume | input => exact hwork h

theorem inv_byte (hI : Inv s q) (hown : Owned (s.rx.status s.rx.dma))
    (hlt : s.filling.length < ethMaxPacketSize) (b : UInt8) :
    Inv { s with
      rx := { s.rx with rxBuff := s.rx.rxBuff.set (buffer1Addr s.rx.dma + s.filling.length) b }
      filling := s.filling ++ [b] } q :=
  ⟨hI.ring.byte hown hlt b, hI.atPc, hI.allocs, hI.faults, hI.delivered⟩

theorem inv_complete (hI : Inv s q) (hown : Owned (s.rx.status s.rx.dma)) {w : Word}
    (hw : FrameWord w) (hfl : (ethGetDmaRxDescFrameLength w).toNat = s.filling.length) :
    Inv (s.complete w) (q ++ [(w, row s.rx.rxBuff s.rx.dma)]) := by
  refine ⟨hI.ring.complete hown hw hfl, hI.atPc.arrive _ _, hI.allocs, hI.faults, ?_⟩
  have hle := hI.ring.le
  show s.rx.delivered.map List.flatten = passed ((s.arrived ++ [s.filling]).take s.consumed) _
  rw [List.take_append_of_le_length (by omega)]
  exact hI.delivered

/-! ### The statements -/

theorem Inv.ringAt (hI : Inv s q) (hpc : s.pc = pc) :
    Ring s.rx s.filling s.arrived (pc.head s.rx.dmaRxDescToGet) (s.consumed + pc.handedBack) q := by
  rw [← hpc]
  exact hI.ring

theorem Inv.at (hI : Inv s q) (hpc : s.pc = pc) :
    AtPc s.rx.dmaRxDescToGet s.allocs s.consumed s.arrived q pc := by
  rw [← hpc]
  exact hI.atPc

theorem Inv.allocsAt (hI : Inv s q) (hpc : s.pc = pc) :
    s.allocs.length = s.consumed + pc.allocated := by
  rw [← hpc]
  exact hI.allocs

theorem Inv.goto (hI : Inv s q) (hpc : s.pc = pc) (pc' : Stmt)
    (hhead : pc'.head s.rx.dmaRxDescToGet = pc.head s.rx.dmaRxDescToGet)
    (hhanded : pc'.handedBack = pc.handedBack) (halloc : pc'.allocated = pc.allocated)
    (hat : AtPc s.rx.dmaRxDescToGet s.allocs s.consumed s.arrived q pc') :
    Inv { s with pc := pc' } q := by
  have hring := hI.ringAt hpc
  have hallocs := hI.allocsAt hpc
  rw [← hhead, ← hhanded] at hring
  rw [← halloc] at hallocs
  exact ⟨hring, hat, hallocs, hI.faults, hI.delivered⟩

/-- `while(ETH_GetRxPktSize() != 0)`: the loop goes on only if a descriptor is completed. -/
theorem inv_getRxPktSize (hI : Inv s q) (hpc : s.pc = .getRxPktSize) : Inv (stmt s) q := by
  have hring := hI.ringAt hpc
  simp only [stmt, hpc]
  by_cases hsize : ethGetRxPktSize s.rx = 0
  · rw [if_neg (not_not.mpr hsize)]
    exact hI.goto hpc _ rfl rfl rfl trivial
  · rw [if_pos hsize]
    refine hI.goto hpc _ rfl rfl rfl ?_
    cases q with
    | nil =>
      have how : Owned (s.rx.status s.rx.dmaRxDescToGet) := hring.holds.free_of_nil (by decide)
      exact absurd (ethGetRxPktSize_eq_zero_iff.mpr (Or.inl how)) hsize
    | cons x q' => exact ⟨x, q', rfl⟩

/-- `if((DMARxDescToGet->Status & ETH_DMARxDesc_OWN) != (u32)RESET)`: the early return is not
taken. -/
theorem inv_ownTest (hI : Inv s q) (hpc : s.pc = .ownTest) : Inv (stmt s) q := by
  obtain ⟨x, q', rfl⟩ := hI.at hpc
  obtain ⟨hw, hframe⟩ := (hI.ringAt hpc).status_head
  have hown : ¬ s.rx.status s.rx.dmaRxDescToGet &&& ethDmaRxDescOwn ≠ 0 := by
    rw [show s.rx.status s.rx.dmaRxDescToGet = x.1 from hw]
    exact hframe.1
  simp only [stmt, hpc]
  rw [if_neg hown]
  exact hI.goto hpc _ rfl rfl rfl ⟨x, q', rfl⟩

theorem inv_goodTest (hI : Inv s q) (hpc : s.pc = .goodTest) : Inv (stmt s) q := by
  obtain ⟨x, q', rfl⟩ := hI.at hpc
  obtain ⟨hw, -, ⟨hes, hls, hfs, -⟩, -⟩ := (hI.ringAt hpc).status_head
  have hw' : s.rx.status s.rx.dmaRxDescToGet = x.1 := hw
  simp only [stmt, hpc]
  rw [hw', if_pos ⟨hes, hls, hfs⟩]
  exact hI.goto hpc _ rfl rfl rfl ⟨x, q', rfl⟩

theorem inv_framelength (hI : Inv s q) (hpc : s.pc = .framelength) : Inv (stmt s) q := by
  obtain ⟨x, q', rfl⟩ := hI.at hpc
  have hw : s.rx.status s.rx.dmaRxDescToGet = x.1 := (hI.ringAt hpc).status_head.1
  simp only [stmt, hpc]
  refine hI.goto hpc _ rfl rfl rfl ⟨x, q', rfl, ?_⟩
  rw [hw]
  rfl

theorem inv_buffer (hI : Inv s q) {fl : Word} (hpc : s.pc = .buffer fl) : Inv (stmt s) q := by
  obtain ⟨x, q', rfl, rfl⟩ := hI.at hpc
  simp only [stmt, hpc]
  exact hI.goto hpc _ rfl rfl rfl ⟨x, q', rfl, rfl, rfl⟩

theorem inv_descriptor (hI : Inv s q) {fl : Word} {b : Option ℕ} (hpc : s.pc = .descriptor fl b) :
    Inv (stmt s) q := by
  obtain ⟨x, q', rfl, rfl, rfl⟩ := hI.at hpc
  simp only [stmt, hpc]
  exact hI.goto hpc _ rfl rfl rfl ⟨x, q', rfl, rfl⟩

/-- `DMARxDescToGet` goes on, the descriptor is still to be handed back. -/
theorem inv_advance (hI : Inv s q) {frame : FrameTypeDef} (hpc : s.pc = .advance frame) :
    Inv (stmt s) q := by
  obtain ⟨x, q', rfl, rfl⟩ := hI.at hpc
  have hallocs : s.allocs.length = s.consumed := hI.allocsAt hpc
  simp only [stmt, hpc]
  exact ⟨(hI.ringAt hpc).congr rfl rfl rfl, ⟨x, q', _, rfl, rfl, rfl⟩, hallocs, hI.faults,
    hI.delivered⟩

theorem inv_alloc (hI : Inv s q) {frame : FrameTypeDef} (hpc : s.pc = .alloc frame) :
    Inv (stmt s) q := by
  obtain ⟨x, q', d, rfl, rfl, hget⟩ := hI.at hpc
  have hring := hI.ringAt hpc
  obtain ⟨-, hgood, hlt, hle⟩ := hring.status_head.2
  have hlen : s.allocs.length = s.consumed := hI.allocsAt hpc
  have hlast : ∀ b, (s.allocs ++ [b])[s.consumed]? = some b := fun b => by
    rw [← hlen, List.getElem?_concat_length]
  have hdel : ∀ b, s.rx.delivered.map List.flatten =
      passed (s.arrived.take s.consumed) ((s.allocs ++ [b]).take s.consumed) := fun b => by
    rw [List.take_append_of_le_length (by omega)]
    exact hI.delivered
  have hlen' : ∀ b, (s.allocs ++ [b]).length = s.consumed + 1 := fun b => by
    rw [List.length_append, hlen, List.length_singleton]
  simp only [stmt, hpc]
  cases halloc : pbufAlloc s.rx.avail ((frameAt d x.1).length.setWidth 16).toNat with
  | none =>
    exact ⟨hring, ⟨x, q', d, rfl, rfl, hget, hlast false, fun _ h => by cases h⟩, hlen' false,
      hI.faults, hdel false⟩
  | some lens =>
    refine ⟨hring.congr rfl rfl rfl, ⟨x, q', d, rfl, rfl, hget, hlast true, rfl, ?_⟩, hlen' true,
      hI.faults, hdel true⟩
    have hsum := pbufAlloc_sum halloc
    have hfl := RxInput.len_eq hgood.2.2.2 hle
    rw [if_pos (Nat.le_of_lt hlt)] at hfl
    rw [hsum, Nat.zero_add]
    exact hfl

theorem inv_copy (hI : Inv s q) {frame : FrameTypeDef} {l : ℕ} {done : Chain} {lens : List ℕ}
    (hpc : s.pc = .copy frame l done lens) : Inv (stmt s) q := by
  obtain ⟨x, q', d, rfl, rfl, hget, hlast, hdone, hsum⟩ := hI.at hpc
  have hring : Ring s.rx s.filling s.arrived d s.consumed (x :: q') := hI.ringAt hpc
  obtain ⟨-, -, -, hle⟩ := hring.status_head.2
  cases lens with
  | nil =>
    simp only [stmt, hpc]
    refine hI.goto hpc _ rfl rfl rfl ⟨x, q', d, rfl, rfl, hget, hlast, fun c hc => ?_⟩
    rw [List.sum_nil, Nat.add_zero] at hsum
    rw [← Option.some.inj hc, hdone, hring.stripCrc_head, hsum]
  | cons len lens =>
    rw [List.sum_cons] at hsum
    have hrow : row s.rx.rxBuff d = x.2 := congrArg Prod.snd hring.holds.head
    have hfault : s.memcpyFaults (buffer1Addr d + l) len = [] := by
      unfold Irq.memcpyFaults
      rw [if_pos (hring.memcpy_ok (by omega))]
    have hread : window s.rx.rxBuff (buffer1Addr d + l) len = window x.2 l len := by
      rw [← hrow]
      exact (window_window _ _ (by omega)).symm
    have hgo := hI.goto hpc (.copy (frameAt d x.1) (l + len)
      (done ++ [window s.rx.rxBuff (buffer1Addr d + l) len]) lens) rfl rfl rfl
      ⟨x, q', d, rfl, rfl, hget, hlast, by
        rw [List.flatten_append, hdone, hread, List.flatten_singleton, ← window_zero_left,
          ← window_zero_left, window_add, Nat.zero_add], by omega⟩
    have hnone : s.faults ++ s.memcpyFaults (buffer1Addr d + l) len = [] := by
      rw [hI.faults, hfault]
      rfl
    simp only [stmt, hpc]
    exact ⟨hgo.ring, hgo.atPc, hgo.allocs, hnone, hgo.delivered⟩

theorem inv_handBack (hI : Inv s q) {frame : FrameTypeDef} {p : Option Chain}
    (hpc : s.pc = .handBack frame p) : ∃ q', Inv (stmt s) q' := by
  obtain ⟨x, q', d, rfl, rfl, hget, hlast, hp⟩ := hI.at hpc
  have hring : Ring s.rx s.filling s.arrived d s.consumed (x :: q') := hI.ringAt hpc
  obtain ⟨hw, hframe⟩ := hring.status_head
  have hfree : ¬ Owned (s.rx.status d) := by
    rw [hw]
    exact hframe.1
  have hnone : s.faults ++ (if Owned (s.rx.status d) then [Fault.status] else []) = [] := by
    rw [hI.faults, if_neg hfree]
    rfl
  have hallocs : s.allocs.length = s.consumed + 1 := hI.allocsAt hpc
  have hback := hring.handBack
  rw [← hget] at hback
  refine ⟨q', ?_⟩
  simp only [stmt, hpc, frameAt]
  exact ⟨hback.congr rfl rfl rfl, ⟨frameOf x, hring.head_arrived, hlast, hp⟩, hallocs, hnone,
    hI.delivered⟩

theorem inv_resume (hI : Inv s q) {p : Option Chain} (hpc : s.pc = .resume p) : Inv (stmt s) q := by
  obtain ⟨f, hf, hlast, hp⟩ := hI.at hpc
  have hgo := hI.goto hpc (.input p) rfl rfl rfl ⟨f, hf, hlast, hp⟩
  simp only [stmt, hpc]
  exact ⟨hgo.ring.congr rfl rfl rfl, hgo.atPc, hgo.allocs, hgo.faults, hgo.delivered⟩

theorem inv_input (hI : Inv s q) {p : Option Chain} (hpc : s.pc = .input p) : Inv (stmt s) q := by
  obtain ⟨f, hf, hlast, hp⟩ := hI.at hpc
  have hallocs : s.allocs.length = s.consumed + 1 := hI.allocsAt hpc
  simp only [stmt, hpc]
  refine ⟨(hI.ringAt hpc).congr rfl rfl rfl, trivial, hallocs, hI.faults, ?_⟩
  show (s.rx.delivered ++ p.toList).map List.flatten = _
  rw [List.map_append, passed_succ hf hlast, hI.delivered]
  cases p with
  | none => rfl
  | some c => exact congrArg (fun g => _ ++ [g]) (hp c rfl)

/-- **A statement keeps the invariant.** -/
theorem inv_stmt (hI : Inv s q) : ∃ q', Inv (stmt s) q' := by
  cases hpc : s.pc with
  | idle => exact ⟨q, by simp only [stmt, hpc]; exact hI⟩
  | getRxPktSize => exact ⟨q, inv_getRxPktSize hI hpc⟩
  | ownTest => exact ⟨q, inv_ownTest hI hpc⟩
  | ownReturn => exact absurd (hI.at hpc) id
  | goodTest => exact ⟨q, inv_goodTest hI hpc⟩
  | framelength => exact ⟨q, inv_framelength hI hpc⟩
  | buffer => exact ⟨q, inv_buffer hI hpc⟩
  | descriptor => exact ⟨q, inv_descriptor hI hpc⟩
  | advance => exact ⟨q, inv_advance hI hpc⟩
  | alloc => exact ⟨q, inv_alloc hI hpc⟩
  | copy => exact ⟨q, inv_copy hI hpc⟩
  | handBack => exact inv_handBack hI hpc
  | resume => exact ⟨q, inv_resume hI hpc⟩
  | input => exact ⟨q, inv_input hI hpc⟩
  | clearR =>
    have hgo := hI.goto hpc (.clearNis) rfl rfl rfl trivial
    refine ⟨q, ?_⟩
    simp only [stmt, hpc]
    exact ⟨hgo.ring, hgo.atPc, hgo.allocs, hgo.faults, hgo.delivered⟩
  | clearNis =>
    have hgo := hI.goto hpc (.idle) rfl rfl rfl trivial
    refine ⟨q, ?_⟩
    simp only [stmt, hpc]
    exact ⟨hgo.ring, hgo.atPc, hgo.allocs, hgo.faults, hgo.delivered⟩

/-! ### Runs -/

/-- **Every step keeps the invariant.** -/
theorem inv_step {s' : Irq} {e : Event} (hI : Inv s q) (hs : step s e = some s') :
    ∃ q', Inv s' q' := by
  cases e with
  | byte b =>
    obtain ⟨⟨hown, hlt⟩, rfl⟩ := guard_eq_some hs
    exact ⟨q, inv_byte hI hown hlt b⟩
  | complete w =>
    obtain ⟨⟨hown, hw, hfl⟩, rfl⟩ := guard_eq_some hs
    exact ⟨_, inv_complete hI hown hw hfl⟩
  | full =>
    obtain ⟨-, rfl⟩ := excluded_eq_some hs
    exact ⟨q, hI.ring.congr rfl rfl rfl, hI.atPc, hI.allocs, hI.faults, hI.delivered⟩
  | pool avail =>
    obtain rfl := Option.some.inj hs
    exact ⟨q, hI.ring.congr rfl rfl rfl, hI.atPc, hI.allocs, hI.faults, hI.delivered⟩
  | irq =>
    simp only [step] at hs
    split at hs
    next hpc =>
      obtain rfl := Option.some.inj hs
      exact ⟨q, hI.goto hpc .getRxPktSize rfl rfl rfl trivial⟩
    next => cases hs
  | stmt =>
    simp only [step] at hs
    split at hs
    next => cases hs
    next =>
      obtain rfl := Option.some.inj hs
      exact inv_stmt hI

theorem inv_run {es : List Event} (hr : run step Irq.init es = some s) : ∃ q, Inv s q :=
  invariant' (fun s => ∃ q, Inv s q) (fun _ _ _ ⟨_, hI⟩ hs => inv_step hI hs) ⟨[], inv_init⟩ hr

/-- **What `pbuf_alloc` returns** depends on the pool and on the length of the frame in work only. -/
theorem Inv.alloc_iff (hI : Inv s q) {frame : FrameTypeDef} (hpc : s.pc = .alloc frame) :
    ∃ f, s.arrived[s.consumed]? = some f ∧ (stmt s).allocs = s.allocs ++
      [decide (0 < s.rx.avail ∧ f.length - 4 ≤ s.rx.avail * pbufPoolBufsize)] := by
  obtain ⟨x, q', d, rfl, rfl, -⟩ := hI.at hpc
  have hring : Ring s.rx s.filling s.arrived d s.consumed (x :: q') := hI.ringAt hpc
  obtain ⟨-, hgood, hlt, hle⟩ := hring.status_head.2
  have hrow : x.2.length = ethMaxPacketSize := by
    have hslot : row s.rx.rxBuff d = x.2 := congrArg Prod.snd hring.holds.head
    rw [← hslot]
    exact row_length hring d
  have hframe : (frameOf x).length = (ethGetDmaRxDescFrameLength x.1).toNat := by
    rw [frameOf, List.length_take, hrow, Nat.min_eq_left hle]
  have hlen : ((frameAt d x.1).length.setWidth 16).toNat = (frameOf x).length - 4 := by
    rw [hframe]
    exact (RxInput.len_eq hgood.2.2.2 hle).trans (if_pos (Nat.le_of_lt hlt))
  refine ⟨frameOf x, hring.head_arrived, ?_⟩
  have hsome := pbufAlloc_isSome_iff s.rx.avail ((frameOf x).length - 4)
  simp only [stmt, hpc]
  rw [hlen]
  cases halloc : pbufAlloc s.rx.avail ((frameOf x).length - 4) with
  | none =>
    rw [halloc] at hsome
    rw [decide_eq_false (hsome.not.mp Bool.false_ne_true)]
  | some lens =>
    rw [halloc] at hsome
    rw [decide_eq_true (hsome.mp rfl)]

/-- **Every frame once and in order.** After any interleaving of the DMA with the handler, the
frames passed to `netif->input` are those consumed so far, in the order in which they have arrived
and without their CRC, except those for which `pbuf_alloc` has returned NULL; and the CPU has done
nothing it must not do.

The frames that have been consumed are those whose descriptors are back with the DMA, and one more
may be; the frame `i` is stored in the descriptor `i` of the ring, and `pbuf_alloc` returns NULL for
a frame only if the pool has no room for it. -/
theorem frames_in_order {es : List Event} (hr : run step Irq.init es = some s) :
    s.faults = [] ∧ s.consumed ≤ s.arrived.length ∧ s.consumed ≤ s.allocs.length ∧
      s.rx.delivered.map List.flatten =
        passed (s.arrived.take s.consumed) (s.allocs.take s.consumed) ∧
      s.pc.head s.rx.dmaRxDescToGet =
        buffer2NextDescAddr^[s.consumed + s.pc.handedBack] firstDesc ∧
      s.rx.dma = buffer2NextDescAddr^[s.arrived.length] firstDesc ∧
      (∀ d, ¬ Owned (s.rx.status d) ↔ ∃ i, s.consumed + s.pc.handedBack ≤ i ∧
        i < s.arrived.length ∧ d = buffer2NextDescAddr^[i] firstDesc) ∧
      s.allocs.length = s.consumed + s.pc.allocated ∧
      ∀ frame, s.pc = .alloc frame → ∃ f, s.arrived[s.consumed]? = some f ∧
        (stmt s).allocs = s.allocs ++
          [decide (0 < s.rx.avail ∧ f.length - 4 ≤ s.rx.avail * pbufPoolBufsize)] := by
  obtain ⟨q, hI⟩ := inv_run hr
  have hle := hI.ring.le
  have hallocs := hI.allocs
  exact ⟨hI.faults, by omega, by omega, hI.delivered, hI.ring.cursor, hI.ring.dma_eq,
    hI.ring.cpu_iff, hallocs, fun frame hpc => hI.alloc_iff hpc⟩

/-- A frame of six bytes arrives; while it is handled the next one is stored. -/
def twoFrames : List Event :=
  [.byte 1, .byte 2, .byte 3, .byte 4, .byte 5, .byte 6, .complete 0x00060300#32, .irq] ++
  List.replicate 8 .stmt ++ [.byte 7, .byte 8, .byte 9, .byte 10, .byte 11] ++
  List.replicate 6 .stmt ++ [.complete 0x00050300#32, .stmt]

theorem frames_in_order_two : ∃ s, run step Irq.init twoFrames = some s ∧ s.consumed = 1 ∧
    s.faults = [] ∧ s.consumed ≤ s.arrived.length ∧ s.consumed ≤ s.allocs.length ∧
      s.rx.delivered.map List.flatten =
        passed (s.arrived.take s.consumed) (s.allocs.take s.consumed) := by
  obtain ⟨s, hr, hcons⟩ := Option.map_eq_some_iff.mp
    (show (run step Irq.init twoFrames).map Irq.consumed = some 1 by decide +kernel)
  obtain ⟨hfaults, harrived, hallocs, hdelivered, -⟩ := frames_in_order hr
  exact ⟨s, hr, hcons, hfaults, harrived, hallocs, hdelivered⟩

end Stm32TcpServer.Eth.RxFrames
