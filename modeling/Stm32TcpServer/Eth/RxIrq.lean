import Stm32TcpServer.Eth.RxFrames

/-! # The receive interrupt and the frames it misses (dp83848.c)

`ETH_IRQHandler` takes frames from the ring until `ETH_GetRxPktSize` is 0 and clears the bits `R`
and `NIS` of `ETH->DMASR` only then. A frame that the DMA completes after the last test sets bits
that are already set, and the two writes clear them for this frame too.

* `heard_iff`: a completed frame always has its interrupt pending if no frame is completed between
  the test that ends the loop and the second write; and a run that ends outside this gap has
  completed no frame in it if this is so in all its states.
* `frame_waits`: a frame that is missed stays in the ring until another one arrives. -/

namespace Stm32TcpServer.Eth.RxIrq

open Stm32TcpServer.Lib.Ring Stm32TcpServer.Lib.Runs
open Stm32TcpServer.Eth.RxRing hiding Event step
open Stm32TcpServer.Eth.Desc Stm32TcpServer.Eth.RxHandler Stm32TcpServer.Eth.RxSlots
open Stm32TcpServer.Eth.RxFrames

/-- The interrupt is pending: both bits are enabled, and both are set. -/
def Pending (s : Irq) : Prop := s.itR = true ∧ s.itNis = true

/-- The descriptor at `DMARxDescToGet` holds a completed frame. -/
def Completed (s : Irq) : Prop := ¬ Owned (s.rx.status s.rx.dmaRxDescToGet)

/-- **No frame waits unheard**: while the handler is not running, a completed frame at
`DMARxDescToGet` has its interrupt pending. -/
def Heard (s : Irq) : Prop :=
  match s.pc with
  | .idle => Completed s → Pending s
  | _ => True

/-- The loop of the handler has ended, and the bits have not been cleared yet. -/
def InGap : Stmt → Prop
  | .clearR | .clearNis => True
  | _ => False

/-- The step completes no frame in the gap. -/
def NoGap (s : Irq) : Event → Prop
  | .complete _ => ¬ InGap s.pc
  | _ => True

instance (s : Irq) : Decidable (Heard s) := by
  unfold Heard Completed Pending; split <;> infer_instance

instance : DecidablePred InGap := fun pc => by unfold InGap; split <;> infer_instance

instance (s : Irq) (e : Event) : Decidable (NoGap s e) := by unfold NoGap; split <;> infer_instance

variable {s s' : Irq} {q : List Slot}

/-- Nothing has been completed in the gap, and no frame waits unheard. -/
structure Quiet (s : Irq) : Prop where
  gap : InGap s.pc → ¬ Completed s
  heard : Heard s

theorem quiet_of_running (hgap : ¬ InGap s.pc) (hidle : s.pc ≠ .idle) : Quiet s := by
  refine ⟨fun h => absurd h hgap, ?_⟩
  unfold Heard
  split
  next h => exact absurd h hidle
  next => trivial

theorem not_completed_of_size (hI : Inv s q) (hpc : s.pc = .getRxPktSize)
    (hsize : ethGetRxPktSize s.rx = 0) : ¬ Completed s := by
  intro hcomp
  have hring : Ring s.rx s.filling s.arrived s.rx.dmaRxDescToGet s.consumed q := hI.ringAt hpc
  rcases ethGetRxPktSize_eq_zero_iff.mp hsize with hown | hbad
  · exact hcomp hown
  · cases q with
    | nil => exact hcomp (hring.holds.free_of_nil (by decide))
    | cons x q' =>
      obtain ⟨hw, hframe⟩ := hring.status_head
      rw [hw] at hbad
      exact hbad hframe.2.1

/-- **A statement** keeps the handler quiet. -/
theorem quiet_stmt (hI : Inv s q) (hQ : Quiet s) : Quiet (stmt s) := by
  cases hpc : s.pc with
  | idle =>
    simp only [stmt, hpc]
    exact hQ
  | getRxPktSize =>
    simp only [stmt, hpc]
    by_cases hsize : ethGetRxPktSize s.rx = 0
    · have hnot := not_completed_of_size hI hpc hsize
      rw [if_neg (not_not.mpr hsize)]
      exact ⟨fun _ => hnot, trivial⟩
    · rw [if_pos hsize]
      exact quiet_of_running id (by simp)
  | clearR =>
    have hnot := hQ.gap (by rw [hpc]; trivial)
    simp only [stmt, hpc]
    exact ⟨fun _ => hnot, trivial⟩
  | clearNis =>
    -- the handler ends: what it has left in the ring is what the DMA owns
    have hnot := hQ.gap (by rw [hpc]; trivial)
    simp only [stmt, hpc]
    exact ⟨False.elim, fun hcomp => absurd hcomp hnot⟩
  | ownTest | goodTest =>
    simp only [stmt, hpc]
    split <;> exact quiet_of_running id (by simp)
  | alloc frame =>
    simp only [stmt, hpc]
    split <;> exact quiet_of_running id (by simp)
  | copy frame l done lens =>
    cases lens <;> simp only [stmt, hpc] <;> exact quiet_of_running id (by simp)
  | handBack frame p =>
    simp only [stmt, hpc]
    split <;> exact quiet_of_running id (by simp)
  | ownReturn | framelength | buffer | descriptor | advance | resume | input =>
    simp only [stmt, hpc]
    exact quiet_of_running id (by simp)

theorem dma_eq_of_gap (hI : Inv s q) (hgap : InGap s.pc) (hnot : ¬ Completed s) :
    s.rx.dma = s.rx.dmaRxDescToGet := by
  have hhead : s.pc.head s.rx.dmaRxDescToGet = s.rx.dmaRxDescToGet := by
    revert hgap
    cases s.pc <;> first | exact fun _ => rfl | exact False.elim
  have hring := hI.ring
  rw [hhead] at hring
  cases q with
  | nil => exact hring.dma
  | cons x q' =>
    obtain ⟨hstatus, hframe⟩ := hring.status_head
    refine absurd ?_ hnot
    unfold Completed
    rw [hstatus]
    exact hframe.1

/-- **A completed frame** keeps the handler quiet unless it comes in the gap: there the descriptor
at `DMARxDescToGet` is the one that has been completed. -/
theorem quiet_complete (hI : Inv s q) (hQ : Quiet s) {w : Word} (hw : FrameWord w) :
    Quiet (s.complete w) ↔ ¬ InGap s.pc := by
  constructor
  · intro hQ' hgap
    have hdma := dma_eq_of_gap hI hgap (hQ.gap hgap)
    refine hQ'.gap hgap ?_
    show ¬ Owned (Function.update s.rx.status s.rx.dma w s.rx.dmaRxDescToGet)
    rw [hdma, Function.update_self]
    exact hw.1
  · intro hgap
    refine ⟨fun h => absurd h hgap, ?_⟩
    unfold Heard
    split
    next => exact fun _ => ⟨rfl, rfl⟩
    next => trivial

/-- **Every step** keeps the handler quiet exactly if it completes no frame in the gap. -/
theorem quiet_step {e : Event} (hI : Inv s q) (hQ : Quiet s) (hs : step s e = some s') :
    Quiet s' ↔ NoGap s e := by
  cases e with
  | complete w =>
    obtain ⟨⟨-, hw, -⟩, rfl⟩ := guard_eq_some hs
    exact quiet_complete hI hQ hw
  | byte b =>
    obtain ⟨-, rfl⟩ := guard_eq_some hs
    exact iff_of_true ⟨hQ.gap, hQ.heard⟩ trivial
  | full =>
    obtain ⟨-, rfl⟩ := excluded_eq_some hs
    exact iff_of_true ⟨hQ.gap, hQ.heard⟩ trivial
  | pool avail =>
    obtain rfl := Option.some.inj hs
    exact iff_of_true ⟨hQ.gap, hQ.heard⟩ trivial
  | irq =>
    simp only [step] at hs
    split at hs
    next =>
      obtain rfl := Option.some.inj hs
      exact iff_of_true (quiet_of_running id (by simp)) trivial
    next => cases hs
  | stmt =>
    simp only [step] at hs
    split at hs
    next => cases hs
    next =>
      obtain rfl := Option.some.inj hs
      exact iff_of_true (quiet_stmt hI hQ) trivial

theorem quiet_init : Quiet Irq.init := ⟨False.elim, fun h => absurd owned_own h⟩

/-! ### Runs -/

/-- All states of a run are quiet exactly if it completes no frame in the gap. -/
theorem quiet_iff {t : Irq} {es : List Event} (hr : run step Irq.init es = some t) :
    (∀ n u, run step Irq.init (es.take n) = some u → Quiet u) ↔ Along step NoGap Irq.init es :=
  always_iff_along (fun s => ∃ q, Inv s q) (fun _ _ _ ⟨_, hI⟩ _ hs => inv_step hI hs)
    (fun _ _ _ ⟨_, hI⟩ hQ hs => quiet_step hI hQ hs) ⟨[], inv_init⟩ quiet_init hr

/-- A frame completed in the gap stays there until the handler ends, and is not heard then. -/
theorem gap_step {e : Event} (hgap : InGap s.pc) (hcomp : Completed s) (hs : step s e = some s') :
    InGap s'.pc ∧ Completed s' ∨ ¬ Heard s' := by
  cases e with
  | complete w =>
    obtain ⟨⟨-, hw, -⟩, rfl⟩ := guard_eq_some hs
    refine Or.inl ⟨hgap, ?_⟩
    show ¬ Owned (Function.update s.rx.status s.rx.dma w s.rx.dmaRxDescToGet)
    by_cases hd : s.rx.dmaRxDescToGet = s.rx.dma
    · rw [hd, Function.update_self]
      exact hw.1
    · rw [Function.update_of_ne hd]
      exact hcomp
  | byte b =>
    obtain ⟨-, rfl⟩ := guard_eq_some hs
    exact Or.inl ⟨hgap, hcomp⟩
  | full =>
    obtain ⟨-, rfl⟩ := excluded_eq_some hs
    exact Or.inl ⟨hgap, hcomp⟩
  | pool avail =>
    obtain rfl := Option.some.inj hs
    exact Or.inl ⟨hgap, hcomp⟩
  | irq =>
    simp only [step] at hs
    split at hs
    next hpc =>
      rw [hpc] at hgap
      exact absurd hgap id
    next => cases hs
  | stmt =>
    have hs' : s' = stmt s := by
      simp only [step] at hs
      split at hs
      next => cases hs
      next => exact (Option.some.inj hs).symm
    rw [hs']
    revert hgap
    cases hpc : s.pc <;> intro hgap <;> simp only [InGap] at hgap
    case clearR =>
      simp only [stmt, hpc]
      exact Or.inl ⟨trivial, hcomp⟩
    case clearNis =>
      simp only [stmt, hpc]
      exact Or.inr fun h => Bool.false_ne_true (h hcomp).2

/-- A run from the gap with a frame completed leads to a state in which it is not heard. -/
theorem missed {t : Irq} {es : List Event} (hgap : InGap s.pc) (hcomp : Completed s)
    (hr : run step s es = some t) (hend : ¬ InGap t.pc) :
    ∃ n u, run step s (es.take n) = some u ∧ ¬ Heard u := by
  induction es generalizing s with
  | nil =>
    cases hr
    exact absurd hgap hend
  | cons e es ih =>
    obtain ⟨s', hs, hr'⟩ := run_cons_eq_some.mp hr
    rcases gap_step hgap hcomp hs with ⟨hgap', hcomp'⟩ | hbad
    · obtain ⟨n, u, hu, hbad⟩ := ih hgap' hcomp' hr'
      refine ⟨n + 1, u, ?_, hbad⟩
      rw [List.take_succ_cons, run_cons_some hs]
      exact hu
    · refine ⟨1, s', ?_, hbad⟩
      rw [List.take_succ_cons, run_cons_some hs]
      rfl

/-- **No lost receive interrupt**, if no frame is completed in the gap; and a run that ends outside
the gap loses none only then. -/
theorem heard_iff {t : Irq} {es : List Event} (hr : run step Irq.init es = some t) :
    (Along step NoGap Irq.init es →
      ∀ n u, run step Irq.init (es.take n) = some u → Heard u) ∧
    (¬ InGap t.pc → (∀ n u, run step Irq.init (es.take n) = some u → Heard u) →
      Along step NoGap Irq.init es) := by
  refine ⟨fun hA n u hu => ((quiet_iff hr).mpr hA n u hu).heard, fun hend hheard => ?_⟩
  refine (quiet_iff hr).mp fun n u hu => ⟨fun hgap hcomp => ?_, hheard n u hu⟩
  -- the rest of the run ends outside the gap, so it has come to a state that is not heard
  have hrest : run step u (es.drop n) = some t := by
    have happ : run step Irq.init (es.take n ++ es.drop n) = _ := run_append _ _ _
    rw [List.take_append_drop, hr, hu] at happ
    exact happ.symm
  obtain ⟨m, v, hv, hbad⟩ := missed hgap hcomp hrest hend
  refine hbad (hheard (n + m) v ?_)
  rw [List.take_add, run_append, hu]
  exact hv

/-- A frame of five bytes is stored. -/
def frame : List Event := List.replicate 5 (.byte 1) ++ [.complete 0x00050300#32]

/-- A second frame is completed after `k` statements of the handler, which then executes `m` more. -/
def overlapping (k m : ℕ) : List Event :=
  frame ++ .irq :: List.replicate k .stmt ++ frame ++ List.replicate m .stmt

/-- The second frame is completed while the first one is handled. -/
theorem heard_iff_frames : ∃ t, run step Irq.init (overlapping 12 17) = some t ∧ t.consumed = 2 ∧
    ∀ n u, run step Irq.init ((overlapping 12 17).take n) = some u → Heard u := by
  obtain ⟨t, hr, ht⟩ := Option.map_eq_some_iff.mp
    (show (run step Irq.init (overlapping 12 17)).map Irq.consumed = some 2 by decide +kernel)
  exact ⟨t, hr, ht, (heard_iff hr).1 (by decide +kernel)⟩

/-- **A missed frame.** The second frame is completed between the last test of the loop and the
writes to `ETH->DMASR`: when the handler ends it is in the ring, and no interrupt is pending. -/
theorem frame_missed : ∃ s, run step Irq.init (overlapping 14 2) = some s ∧ ¬ Heard s := by
  obtain ⟨s, hr, hs⟩ := Option.map_eq_some_iff.mp
    (show (run step Irq.init (overlapping 14 2)).map (fun s => decide (Heard s)) = some false by
      decide +kernel)
  exact ⟨s, hr, of_decide_eq_false hs⟩

/-! ### What becomes of a missed frame -/

/-- No frame is completed, and the handler is entered only for a pending interrupt. -/
def Waiting (s : Irq) : Event → Prop
  | .complete _ => False
  | .irq => Pending s
  | _ => True

/-- **A missed frame waits.** As long as no other frame arrives, the handler is not entered, and
nothing is passed to `netif->input`. -/
theorem frame_waits {t : Irq} {es : List Event} (hbad : ¬ Heard s)
    (hA : Along step Waiting s es) (hr : run step s es = some t) :
    ¬ Heard t ∧ t.rx.delivered = s.rx.delivered := by
  refine invariant (fun u => ¬ Heard u ∧ u.rx.delivered = s.rx.delivered) ?_ ⟨hbad, rfl⟩ hA hr
  rintro u e u' ⟨hu, hdel⟩ hG hs
  have hidle : u.pc = .idle := by
    by_contra hne
    refine hu ?_
    unfold Heard
    split
    next h => exact absurd h hne
    next => trivial
  have hu' : ¬ (Completed u → Pending u) := by
    unfold Heard at hu
    rw [hidle] at hu
    exact hu
  cases e with
  | complete w => exact hG.elim
  | irq => exact absurd (fun _ => hG) hu'
  | byte b =>
    obtain ⟨-, rfl⟩ := guard_eq_some hs
    exact ⟨hu, hdel⟩
  | full =>
    obtain ⟨-, rfl⟩ := excluded_eq_some hs
    exact ⟨hu, hdel⟩
  | pool avail =>
    obtain rfl := Option.some.inj hs
    exact ⟨hu, hdel⟩
  | stmt =>
    simp only [step, hidle] at hs
    cases hs

end Stm32TcpServer.Eth.RxIrq
