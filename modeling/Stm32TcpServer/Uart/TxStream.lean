import Stm32TcpServer.Lib.Runs
import Stm32TcpServer.Uart.TxCall

/-! # The transmit stream of COM2

The bytes accepted by `SendCom2Data` form one stream: at any moment the bytes sent and the bytes in
the window of channel 7 are, after some of the zero bytes the channel started with, the accepted
bytes in the order of the calls (`transmit_stream`).

A step adds to the blocks on the wire and in the buffer what it adds to the blocks accepted
(`step_holds`), and a call accepts what fits behind the bytes it has found unsent (`QInv`). -/

namespace Stm32TcpServer.Uart.TxStream

open Stm32TcpServer.Lib.Runs Stm32TcpServer.Lib.Window
open Stm32TcpServer.Uart.Dma Stm32TcpServer.Uart.Com2Tx
open Stm32TcpServer.Uart.TxQueue Stm32TcpServer.Uart.TxCall

/-! ### What a call returns -/

/-- The number `q` of the call and the values read from `CNDTR` agree. -/
def QInv (t : Tx) (f : Frame) : Prop :=
  match f.pc with
  | .test | .busyStop | .idleStop => True
  | .busyTmp => f.q = t.channel7.cndtr
  | .busyCnt | .busyShift | .busyClamp | .busyCopy | .busyRet | .busyLen | .busyCndtr =>
    f.q = f.tmp
  | .idleClamp | .idleCopy | .idleRet | .idleLen | .idleCndtr => f.q = 0
  | .busyFlag | .busyStart | .idleFlag | .idleStart | .ret =>
    f.cnt = min f.len0 (uartSendBuf - f.q)

/-- When a call stops the channel, `CNDTR` is the number of bytes accepted and not sent. -/
theorem unsent_stop {bs : List (List UInt8)} {t : Tx} (h : Halted bs t.stop)
    (hb : accepted t.calls = bs.flatten) : t.stop.unsent = t.channel7.cndtr := by
  have hw := congrArg List.length h.wire
  have hp : (pending t.stop).length = t.channel7.cndtr := by
    have hle := h.le
    have hsl := h.sendLen
    exact length_window (by rw [h.bufLen]; omega)
  rw [List.length_append, List.length_append, List.length_replicate, hp] at hw
  have hc : t.stop.calls = t.calls := rfl
  obtain ⟨z, hz⟩ := Option.ne_none_iff_exists'.mp h.stopped
  have hzw := (h.zeros z hz).2
  rw [lead, hz] at hw
  simp only [Option.getD_some] at hw
  rw [Tx.unsent, hc, hb, hz, Option.getD_some]
  have hcn : t.stop.channel7.cndtr = t.channel7.cndtr := rfl
  omega

theorem unsent_idle {bs : List (List UInt8)} {t : Tx} (hok : Ok t)
    (h : Zeros t ∧ bs = [] ∨ Queued bs t ∧ t.channel7.cndtr = 0)
    (hb : accepted t.calls = bs.flatten) : t.stop.unsent = 0 := by
  rcases h with ⟨-, rfl⟩ | ⟨hq, h0⟩
  · have hc : t.stop.calls = t.calls := rfl
    rw [Tx.unsent, hc, hb]
    simp
  · rw [unsent_stop (stop_queued hok hq) hb, h0]

theorem stmt_qInv {bs : List (List UInt8)} {t : Tx} {f : Frame} (h : FrameInv bs t f)
    (hq : QInv t f) (hb : loaded f = [] → accepted t.calls = bs.flatten) :
    QInv (stmt t f).1 (stmt t f).2 := by
  obtain ⟨hlt, hbuf, hinv⟩ := h
  have hsb : uartSendBuf = 100 := rfl
  cases hpc : f.pc <;> simp only [hpc] at hinv <;> simp only [QInv, stmt, hpc] at hq ⊢
  case test => split_ifs <;> trivial
  case busyStop => exact unsent_stop (stop_queued hinv.1 hinv.2.1) (hb (by simp [loaded, hpc]))
  case busyTmp =>
    have hle := hinv.1.le
    have hsl := hinv.1.sendLen
    rw [hq, u8_of_lt (by omega)]
  case idleStop => exact unsent_idle hinv.1 hinv.2.1 (hb (by simp [loaded, hpc]))
  case busyCndtr => rw [hinv.2.1, hinv.1.clamped, hq]
  case idleCndtr => rw [hinv.2.1, hinv.1.clamped, hq]
  all_goals first | exact hq | split_ifs <;> exact hq

/-! ### Runs -/

/-- The transmit side and the call in progress. -/
structure Sys where
  tx : Tx
  frame : Option Frame
deriving DecidableEq

/-- The state `InitCom2Con` leaves. -/
def Sys.init : Sys := { tx := Tx.init, frame := none }

/-- A call begins, executes a statement, or the DMA moves a byte. -/
inductive Event
  | call (pBuf : List UInt8) (len : ℕ)
  | stmt
  | dma
deriving DecidableEq

/-- **One step.** The calls are not nested; their length is a `u8` and lies in the buffer passed. -/
def step (s : Sys) : Event → Option Sys
  | .call pBuf len =>
    if s.frame = none ∧ len < 256 ∧ len ≤ pBuf.length then
      some { s with frame := some (enter pBuf len) }
    else none
  | .stmt => s.frame.map fun f =>
    if f.pc = .ret then { tx := s.tx.finish f, frame := none }
    else { tx := (stmt s.tx f).1, frame := some (stmt s.tx f).2 }
  | .dma => s.tx.beat.map fun t => { s with tx := t }

/-- The blocks accepted so far. -/
def blocks (s : Sys) : List (List UInt8) :=
  s.tx.calls.map Call.accepted ++ s.frame.elim [] loaded

/-- The transmit side holds the blocks `bs`, in a call or between two calls. -/
structure Holds (bs : List (List UInt8)) (s : Sys) : Prop where
  idle : s.frame = none → Steady bs s.tx
  calling : ∀ f, s.frame = some f → FrameInv bs s.tx f

theorem Holds.ok {bs : List (List UInt8)} {s : Sys} (h : Holds bs s) : Ok s.tx := by
  cases hf : s.frame with
  | none => exact (h.idle hf).1.1
  | some f => exact (h.calling f hf).ok

theorem holds_init : Holds [] Sys.init := ⟨fun _ => steady_init, fun _ h => by simp [Sys.init] at h⟩

theorem finish_steady {bs : List (List UInt8)} {t : Tx} (f : Frame) (h : Steady bs t) :
    Steady bs (t.finish f) := by
  obtain ⟨⟨hok, hz⟩, hen⟩ := h
  refine ⟨⟨⟨hok.bufLen, hok.oob, hok.tc, hok.zeros⟩, hz.imp (fun hz => ⟨?_, hz.2⟩)
    fun hq => ⟨?_, hq.2⟩⟩, hen⟩
  · obtain ⟨⟨h1, h2, h3, h4, h5, h6, h7, h8, h9⟩, -⟩ := hz
    exact ⟨h1, h2, h3, h4, h5, h6, h7, h8, h9⟩
  · obtain ⟨⟨h1, h2, h3, h4, h5⟩, -⟩ := hq
    exact ⟨h1, h2, h3, h4, h5⟩

/-- **A step adds to the blocks held what it adds to the blocks accepted.** -/
theorem step_holds {bs : List (List UInt8)} {s s' : Sys} {e : Event} (h : Holds bs s)
    (hs : step s e = some s') : ∃ a, Holds (bs ++ a) s' ∧ blocks s' = blocks s ++ a := by
  cases e with
  | call pBuf len =>
    obtain ⟨hg, rfl⟩ := guard_eq_some hs
    obtain ⟨hf, hlt, hbuf⟩ := hg
    refine ⟨[], ⟨fun h => by simp at h, fun f h' => ?_⟩, by simp [blocks, hf, loaded, enter]⟩
    obtain rfl := Option.some.inj h'
    rw [List.append_nil]
    exact ⟨hlt, hbuf, (h.idle hf).entry, rfl⟩
  | stmt =>
    obtain ⟨f, hf, rfl⟩ := Option.map_eq_some_iff.mp hs
    have hinv := h.calling f hf
    split_ifs with hret
    · obtain ⟨-, -, hst⟩ := hinv
      simp only [hret] at hst
      refine ⟨[], ⟨fun _ => ?_, fun _ h => by simp at h⟩, ?_⟩
      · rw [List.append_nil]
        exact finish_steady f hst
      · simp [blocks, hf, finish_calls, loaded, hret, Call.accepted, Frame.call]
    · refine ⟨added f, ⟨fun h => by simp at h, fun f' h' => ?_⟩, ?_⟩
      · obtain rfl := Option.some.inj h'
        exact stmt_inv hinv hret
      · simp [blocks, hf, stmt_calls, loaded_stmt hret]
  | dma =>
    obtain ⟨t, ht, rfl⟩ := Option.map_eq_some_iff.mp hs
    have hc : t.calls = s.tx.calls := (beat_eq_some h.ok.tc ht).2.2.2.2.2.1
    refine ⟨[], ?_, by simp only [blocks, hc, List.append_nil]⟩
    rw [List.append_nil]
    exact ⟨fun hf => beat_entry (h.idle hf).entry ht,
      fun f hf => beat_frameInv (h.calling f hf) ht⟩

/-- The invariant of runs without nested calls. -/
structure Inv (s : Sys) : Prop where
  holds : Holds (blocks s) s
  counted : ∀ f, s.frame = some f → QInv s.tx f
  returned : ∀ c ∈ s.tx.calls, c.ret = min c.len (uartSendBuf - c.q)

theorem inv_init : Inv Sys.init :=
  ⟨holds_init, fun _ h => by simp [Sys.init] at h, fun _ h => absurd h List.not_mem_nil⟩

theorem beat_qInv {bs : List (List UInt8)} {t t' : Tx} {f : Frame} (h : FrameInv bs t f)
    (hq : QInv t f) (hb : t.beat = some t') : QInv t' f := by
  by_cases hpc : f.pc = .busyTmp
  · obtain ⟨-, -, hinv⟩ := h
    simp only [hpc] at hinv
    rw [beat_held hinv.1.toHeld] at hb
    exact nomatch hb
  · unfold QInv at hq ⊢
    split at hq <;> first | exact hq | exact absurd ‹f.pc = .busyTmp› hpc

/-- **Every step keeps the invariant.** -/
theorem inv_step (s : Sys) (e : Event) (s' : Sys) (h : Inv s) (hs : step s e = some s') :
    Inv s' := by
  obtain ⟨a, hh, hb⟩ := step_holds h.holds hs
  rw [← hb] at hh
  cases e with
  | call pBuf len =>
    obtain ⟨-, rfl⟩ := guard_eq_some hs
    refine ⟨hh, fun f h' => ?_, h.returned⟩
    obtain rfl := Option.some.inj h'
    trivial
  | stmt =>
    obtain ⟨f, hf, rfl⟩ := Option.map_eq_some_iff.mp hs
    have hq := h.counted f hf
    split_ifs at hh ⊢ with hret
    · refine ⟨hh, fun _ h => by simp at h, fun c hc => ?_⟩
      rw [finish_calls, List.mem_append, List.mem_singleton] at hc
      rcases hc with hc | rfl
      · exact h.returned c hc
      · simp only [QInv, hret] at hq
        exact hq
    · refine ⟨hh, fun f' h' => ?_, by simp only [stmt_calls]; exact h.returned⟩
      obtain rfl := Option.some.inj h'
      refine stmt_qInv (h.holds.calling f hf) hq fun hl => ?_
      rw [blocks, hf, Option.elim_some, hl, List.append_nil, accepted]
  | dma =>
    obtain ⟨t, ht, rfl⟩ := Option.map_eq_some_iff.mp hs
    have hc : t.calls = s.tx.calls := (beat_eq_some h.holds.ok.tc ht).2.2.2.2.2.1
    exact ⟨hh, fun f hf => beat_qInv (h.holds.calling f hf) (h.counted f hf) ht,
      by simp only [hc]; exact h.returned⟩

/-- **The transmit stream.** After any run no index has fallen outside `sCom2TxDmaBuf`. When no call
is in progress the bytes sent and the bytes in the window of the channel are at most 100 zero bytes
and then what the calls accepted, in the order of the calls; each call accepted what fits behind the
bytes it found unsent. -/
theorem transmit_stream {es : List Event} {s : Sys} (h : run step Sys.init es = some s) :
    s.tx.oob = false ∧ (s.frame = none →
      (∃ z ≤ uartSendBuf, s.tx.wire ++ s.tx.inWindow = List.replicate z 0 ++ accepted s.tx.calls) ∧
      ∀ c ∈ s.tx.calls, c.ret = min c.len (uartSendBuf - c.q)) := by
  have hinv := invariant' Inv inv_step inv_init h
  cases hf : s.frame with
  | none =>
    have hst := hinv.holds.idle hf
    have hb : accepted s.tx.calls = (blocks s).flatten := by simp [blocks, hf, accepted]
    refine ⟨hst.1.1.oob, fun _ => ⟨⟨lead s.tx, hst.1.1.lead_le, ?_⟩, hinv.returned⟩⟩
    rw [hst.inWindow, hb]
  | some f => exact ⟨hinv.holds.ok.oob, fun h => by simp at h⟩

/-- Two zero bytes leave, `ab` is accepted, `a` leaves, and `c` is queued behind `b`. -/
def runAbc : List Event :=
  [.dma, .dma, .call [97, 98] 2] ++ List.replicate 12 .stmt ++ [.dma, .call [99] 1] ++
    List.replicate 15 .stmt

theorem transmit_stream_abc : ∃ s, run step Sys.init runAbc = some s ∧
    (s.frame, s.tx.wire, s.tx.inWindow) = (none, [0, 0, 97], [98, 99]) ∧ s.tx.oob = false ∧
    ∃ z ≤ uartSendBuf, s.tx.wire ++ s.tx.inWindow = List.replicate z 0 ++ accepted s.tx.calls := by
  obtain ⟨s, hs, he⟩ := Option.map_eq_some_iff.mp
    (show (run step Sys.init runAbc).map (fun s => (s.frame, s.tx.wire, s.tx.inWindow)) =
      some (none, [0, 0, 97], [98, 99]) by decide)
  obtain ⟨hoob, h⟩ := transmit_stream hs
  exact ⟨s, hs, he, hoob, (h (congrArg Prod.fst he)).1⟩

end Stm32TcpServer.Uart.TxStream
