import Mathlib.Data.List.Perm.Basic
import Stm32TcpServer.Lib.Steps
import Stm32TcpServer.Uart.TxStream

/-! # `SendCom2Data` called from an interrupt handler

`SendCom2Data` is called by the main loop (`printf2`) and, through `OnTcpReceiveData`, by
`ETH_IRQHandler`; nothing keeps the handler out of a call of the main loop. Here a call of the
handler runs to completion (`sendCom2Data`) between any two statements of a call of the main loop.

What two calls report as accepted can then be lost (`nested_call_lost`). It is not lost as long as
no call of the handler falls between the moment a call of the main loop has decided how to proceed
(the test of `sCom2SendFlag` in the idle branch, the stopped channel in the busy branch) and the
moment it raises `sCom2SendFlag` (`Calm`, `nested_stream`); at each statement in between a call of
the handler can do harm (`calm_tight`). -/

namespace Stm32TcpServer.Uart.TxNested

open Stm32TcpServer.Lib.Runs Stm32TcpServer.Lib.Steps
open Stm32TcpServer.Uart.Com2Tx Stm32TcpServer.Uart.TxQueue Stm32TcpServer.Uart.TxCall
open Stm32TcpServer.Uart.TxStream

/-- An event of the main loop or the DMA, or a call of the handler. -/
inductive NestedEvent
  | main (e : Event)
  | irq (pBuf : List UInt8) (len : ℕ)
deriving DecidableEq

/-- **One step.** -/
def nestedStep (s : Sys) : NestedEvent → Option Sys
  | .main e => step s e
  | .irq pBuf len =>
    if len < 256 ∧ len ≤ pBuf.length then some { s with tx := (sendCom2Data s.tx pBuf len).1 }
    else none

/-- **Every byte reported as accepted is sent exactly once**: when no call is in progress, the bytes
sent and the bytes in the window of the channel are some of the initial zero bytes and then the
accepted bytes of the calls, in some order of the calls. -/
def Intact (s : Sys) : Prop :=
  s.frame = none → ∃ z ≤ uartSendBuf, ∃ bs : List (List UInt8),
    bs.Perm (s.tx.calls.map Call.accepted) ∧
    s.tx.wire ++ s.tx.inWindow = List.replicate z 0 ++ bs.flatten

/-- A call of the handler stays out of the statements of the main loop's call between its decision
how to proceed and the store to `sCom2SendFlag`. Just before this store it may still come if the
flag is up already or nothing is queued. -/
def Calm (s : Sys) : NestedEvent → Prop
  | .main _ => True
  | .irq _ _ => s.frame.elim True fun f =>
    match f.pc with
    | .test | .busyStop | .busyStart | .idleStart | .ret => True
    | .busyFlag | .idleFlag => s.tx.sCom2SendFlag = 1 ∨ s.tx.channel7.cndtr = 0
    | _ => False

instance (s : Sys) (e : NestedEvent) : Decidable (Calm s e) := by
  unfold Calm
  cases e with
  | main e => exact instDecidableTrue
  | irq pBuf len =>
    cases s.frame with
    | none => exact instDecidableTrue
    | some f => dsimp only [Option.elim]; split <;> infer_instance

/-! ### A call of the handler -/

/-- What the call in progress, once it has loaded its bytes, and the blocks `bs` before it are. -/
def HoldsCall (bs : List (List UInt8)) (calls : List Call) (x : Tx × Frame) : Prop :=
  FrameInv (bs ++ loaded x.2) x.1 x.2 ∧ x.1.calls = calls

theorem next_holdsCall {bs : List (List UInt8)} {calls : List Call} (x : Tx × Frame)
    (h : HoldsCall bs calls x) : HoldsCall bs calls (next x) := by
  by_cases hret : x.2.pc = .ret
  · have hid : next x = x := by simp [next, stmt, hret]
    rw [hid]
    exact h
  · refine ⟨?_, (stmt_calls _ _).trans h.2⟩
    rw [next, loaded_stmt hret, ← List.append_assoc]
    exact stmt_inv h.1 hret

/-- **A call of the handler** from a state as a call expects it: its bytes are queued behind the
others. -/
theorem sendCom2Data_entry {bs : List (List UInt8)} {t : Tx} {pBuf : List UInt8} {len : ℕ}
    (h : Entry bs t) (hlt : len < 256) (hbuf : len ≤ pBuf.length) :
    ∃ c : Call, (sendCom2Data t pBuf len).1.calls = t.calls ++ [c] ∧
      Steady (bs ++ [c.accepted]) (sendCom2Data t pBuf len).1 := by
  obtain ⟨t', f', hr, hret, -, heq⟩ := reaches_sendCom2Data t pBuf len
  have henter : HoldsCall bs t.calls (t, enter pBuf len) := by
    refine ⟨?_, rfl⟩
    simp only [loaded, enter, List.append_nil]
    exact ⟨hlt, hbuf, h, rfl⟩
  obtain ⟨⟨-, -, hst⟩, hcalls⟩ := hr.invariant next_holdsCall henter
  have hl : loaded f' = [f'.call.accepted] := by simp [loaded, hret, Call.accepted, Frame.call]
  simp only [hret, hl] at hst
  refine ⟨f'.call, ?_, ?_⟩
  · rw [heq, finish_calls, hcalls]
  · rw [heq]
    exact finish_steady f' hst

theorem Steady.queued {bs : List (List UInt8)} {b : List UInt8} {t : Tx}
    (h : Steady (bs ++ [b]) t) :
    Ok t ∧ Queued (bs ++ [b]) t ∧ (t.sCom2SendFlag = 1 ∨ t.channel7.cndtr = 0) := by
  obtain ⟨⟨hok, ⟨-, hnil⟩ | ⟨hq, hfl⟩⟩, -⟩ := h
  · simp at hnil
  · exact ⟨hok, hq, hfl⟩

/-- A calm call of the handler finds the state a call expects. -/
theorem entry_of_calm {bs : List (List UInt8)} {s : Sys} {pBuf : List UInt8} {len : ℕ}
    (h : Holds bs s) (hc : Calm s (.irq pBuf len)) : Entry bs s.tx := by
  cases hf : s.frame with
  | none => exact (h.idle hf).entry
  | some f =>
    obtain ⟨-, -, hinv⟩ := h.calling f hf
    simp only [Calm, hf, Option.elim_some] at hc
    cases hpc : f.pc <;> simp only [hpc] at hinv hc
    case test => exact hinv.1
    case busyStop => exact ⟨hinv.1, Or.inr ⟨hinv.2.1, hinv.2.2.1⟩⟩
    case busyFlag | idleFlag => exact ⟨hinv.1, Or.inr ⟨hinv.2, hc⟩⟩
    case busyStart | idleStart => exact ⟨hinv.1, Or.inr hinv.2⟩
    case ret => exact hinv.entry

/-- A calm call of the handler leaves the state the statement after it expects. -/
theorem holds_of_calm {bs : List (List UInt8)} {b : List UInt8} {s : Sys} {t : Tx}
    {pBuf : List UInt8} {len : ℕ} (h : Holds bs s) (hc : Calm s (.irq pBuf len))
    (ht : Steady (bs ++ [b]) t) : Holds (bs ++ [b]) { s with tx := t } := by
  refine ⟨fun _ => ht, fun f hf => ?_⟩
  obtain ⟨hlt, hbuf, hinv⟩ := h.calling f hf
  obtain ⟨hok, hq, hfl⟩ := Steady.queued ht
  refine ⟨hlt, hbuf, ?_⟩
  have hf' : s.frame = some f := hf
  simp only [Calm, hf', Option.elim_some] at hc
  cases hpc : f.pc <;> simp only [hpc] at hinv hc ⊢
  case test => exact ⟨ht.entry, hinv.2⟩
  case busyStop => exact ⟨hok, hq, hfl, hinv.2.2.2⟩
  case busyFlag | idleFlag => exact ⟨hok, hq⟩
  case busyStart | idleStart => exact ⟨hok, hq, hfl⟩
  case ret => exact ht

/-! ### Runs -/

/-- The invariant of runs whose calls of the handler are calm. -/
def Inv (s : Sys) : Prop := ∃ bs, Holds bs s ∧ bs.Perm (blocks s)

theorem inv_step (s : Sys) (e : NestedEvent) (s' : Sys) (h : Inv s) (hc : Calm s e)
    (hs : nestedStep s e = some s') : Inv s' := by
  obtain ⟨bs, hh, hp⟩ := h
  cases e with
  | main e =>
    obtain ⟨a, hh', hb⟩ := step_holds hh hs
    exact ⟨bs ++ a, hh', by rw [hb]; exact hp.append_right a⟩
  | irq pBuf len =>
    obtain ⟨hg, rfl⟩ := guard_eq_some hs
    obtain ⟨c, hcalls, hst⟩ := sendCom2Data_entry (entry_of_calm hh hc) hg.1 hg.2
    refine ⟨bs ++ [c.accepted], holds_of_calm hh hc hst, ?_⟩
    -- the handler's call returns before the call of the main loop it has preempted
    have hb : blocks { s with tx := (sendCom2Data s.tx pBuf len).1 } =
        s.tx.calls.map Call.accepted ++ ([c.accepted] ++ s.frame.elim [] loaded) := by
      simp [blocks, hcalls]
    rw [hb]
    refine (hp.append_right _).trans ?_
    rw [blocks, List.append_assoc]
    exact List.Perm.append_left _ List.perm_append_comm

/-- **The transmit stream under nested use.** In every run in which each call of the handler is calm
every byte reported as accepted is sent exactly once, and no index falls outside the buffer. -/
theorem nested_stream {es : List NestedEvent} {s : Sys}
    (hr : run nestedStep Sys.init es = some s) (hc : Along nestedStep Calm Sys.init es) :
    Intact s ∧ s.tx.oob = false := by
  obtain ⟨bs, hh, hp⟩ := invariant Inv inv_step
    ⟨[], holds_init, List.Perm.refl _⟩ hc hr
  refine ⟨fun hf => ⟨lead s.tx, hh.ok.lead_le, bs, ?_, (hh.idle hf).inWindow⟩, hh.ok.oob⟩
  rw [blocks, hf, Option.elim_none, List.append_nil] at hp
  exact hp

/-- The handler queues `c` behind `ab` before the main loop switches the channel on. -/
def runCalm : List NestedEvent :=
  .main (.call [97, 98] 2) :: List.replicate 10 (.main .stmt) ++ .irq [99] 1 ::
    List.replicate 2 (.main .stmt)

theorem nested_stream_calm : ∃ s, run nestedStep Sys.init runCalm = some s ∧
    (s.frame, s.tx.inWindow) = (none, [97, 98, 99]) ∧ Intact s ∧ s.tx.oob = false := by
  obtain ⟨s, hs, he⟩ := Option.map_eq_some_iff.mp
    (show (run nestedStep Sys.init runCalm).map (fun s => (s.frame, s.tx.inWindow)) =
      some (none, [97, 98, 99]) by decide)
  exact ⟨s, hs, he, nested_stream hs (by decide)⟩

/-! ### Calls that are not calm -/

theorem Intact.count_eq {s : Sys} (h : Intact s) (hf : s.frame = none) {b : UInt8} (hb : b ≠ 0) :
    (s.tx.wire ++ s.tx.inWindow).count b = (accepted s.tx.calls).count b := by
  obtain ⟨z, -, bs, hp, hw⟩ := h hf
  rw [hw, List.count_append, List.count_replicate, if_neg (by simpa using hb.symm), Nat.zero_add]
  exact hp.flatten.count_eq b

/-- A call of the main loop for `ab` finds the channel idle; before it stops the channel, the
handler queues `x`. -/
def runLost : List NestedEvent :=
  [.main (.call [97, 98] 2), .main .stmt, .irq [120] 1] ++ List.replicate 11 (.main .stmt)

/-- **A byte reported as accepted is lost**: the handler's call returns 1, and `x` is neither sent
nor in the window of the channel when both calls have returned. -/
theorem nested_call_lost : ∃ s, run nestedStep Sys.init runLost = some s ∧ s.frame = none ∧
    s.tx.calls.map Call.accepted = [[120], [97, 98]] ∧ 120 ∉ s.tx.wire ++ s.tx.inWindow ∧
    ¬ Intact s := by
  obtain ⟨s, hs, he⟩ := Option.map_eq_some_iff.mp
    (show (run nestedStep Sys.init runLost).map
        (fun s => (s.frame, s.tx.calls.map Call.accepted, s.tx.wire ++ s.tx.inWindow)) =
      some (none, [[120], [97, 98]], [97, 98]) by decide)
  simp only [Prod.mk.injEq] at he
  obtain ⟨hf, hc, hw⟩ := he
  have hx : 120 ∉ s.tx.wire ++ s.tx.inWindow := by rw [hw]; decide
  refine ⟨s, hs, hf, hc, hx, fun hi => ?_⟩
  have hcount := hi.count_eq hf (b := 120) (by decide)
  rw [List.count_eq_zero_of_not_mem hx, accepted, hc] at hcount
  exact absurd hcount (by decide)

/-- The statements before which a call of the handler is not calm. -/
def exposed : List Pc :=
  [.idleStop, .idleClamp, .idleCopy, .idleRet, .idleLen, .idleCndtr, .idleFlag, .busyTmp, .busyCnt,
    .busyShift, .busyClamp, .busyCopy, .busyRet, .busyLen, .busyCndtr, .busyFlag]

/-- How many statements a call for two bytes has executed when it comes to `pc`, one byte being
unsent in the busy branch. -/
def depth : Pc → ℕ
  | .idleStop => 1 | .idleClamp => 2 | .idleCopy => 4 | .idleRet => 6 | .idleLen => 7
  | .idleCndtr => 8 | .idleFlag => 9
  | .busyTmp => 2 | .busyCnt => 3 | .busyShift => 4 | .busyClamp => 6 | .busyCopy => 8
  | .busyRet => 10 | .busyLen => 11 | .busyCndtr => 12
  | _ => 0

/-- The events of the main loop before a call of the handler at `pc`. -/
def before (pc : Pc) : List NestedEvent :=
  match pc with
  | .idleStop | .idleClamp | .idleCopy | .idleRet | .idleLen | .idleCndtr | .idleFlag =>
    .main (.call [5, 6] 2) :: List.replicate (depth pc) (.main .stmt)
  -- the byte left when the call begins is sent before the call stops the channel
  | .busyFlag =>
    .main (.call [1] 1) :: List.replicate 11 (.main .stmt) ++ [.main (.call [5, 6] 2),
      .main .stmt, .main .dma] ++ List.replicate 11 (.main .stmt)
  | _ =>
    .main (.call [1] 1) :: List.replicate 11 (.main .stmt) ++ .main (.call [5, 6] 2) ::
      List.replicate (depth pc) (.main .stmt)

/-- Some accepted byte is sent too often or not often enough. -/
def miscounted (s : Sys) : Bool :=
  s.frame.isNone && [1, 5, 6, 7].any fun b =>
    (s.tx.wire ++ s.tx.inWindow).count b != (accepted s.tx.calls).count b

theorem not_intact_of_miscounted {s : Sys} (h : miscounted s = true) : ¬ Intact s := by
  intro hi
  simp only [miscounted, Bool.and_eq_true, Option.isNone_iff_eq_none] at h
  obtain ⟨hf, h⟩ := h
  obtain ⟨b, hb, hne⟩ := List.any_eq_true.mp h
  have hb0 : b ≠ 0 := by rintro rfl; exact absurd hb (by decide)
  simp [hi.count_eq hf hb0] at hne

/-- **The condition is tight**: at each statement that `Calm` excludes, a call of the handler for
one byte, the only one of the run, spoils the stream. -/
theorem calm_tight : ∀ pc ∈ exposed, ∃ s n t, run nestedStep Sys.init (before pc) = some s ∧
    s.frame.map Frame.pc = some pc ∧
    run nestedStep s (.irq [7] 1 :: List.replicate n (.main .stmt)) = some t ∧ ¬ Intact t := by
  have h : ∀ pc ∈ exposed, ∃ n ∈ List.range 17, ((run nestedStep Sys.init (before pc)).any fun s =>
      s.frame.map Frame.pc == some pc &&
        (run nestedStep s (.irq [7] 1 :: List.replicate n (.main .stmt))).any miscounted) = true := by
    decide
  intro pc hpc
  obtain ⟨n, -, hn⟩ := h pc hpc
  obtain ⟨s, hs, hn⟩ := (Option.any_eq_true _ _).mp hn
  obtain ⟨hp, hn⟩ := Bool.and_eq_true _ _ |>.mp hn
  obtain ⟨t, ht, hm⟩ := (Option.any_eq_true _ _).mp hn
  exact ⟨s, n, t, hs, by simpa using hp, ht, not_intact_of_miscounted hm⟩

end Stm32TcpServer.Uart.TxNested
