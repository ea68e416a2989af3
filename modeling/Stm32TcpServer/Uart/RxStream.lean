import Stm32TcpServer.Lib.Runs
import Stm32TcpServer.Lib.Window
import Stm32TcpServer.Uart.Com2Rx

/-! # The receive stream of COM2

Bytes arrive, and the two interrupt handlers run, between any two statements of `ReadCom2Data`.
`kept s` are the bytes that have been returned or are still going to be: those returned, those in
the hands of a call, those in `sCom2RxBuf`, the one in the USART. An event loses a byte (`Kept`
fails) in exactly these cases: a byte is stored after `ReadCom2Data` has sampled a non-zero count
and before it has stopped the channel; a byte arrives while the USART holds another one; the idle
interrupt reads the data register while the USART holds a byte.

* `step_kept`: every other event keeps what has arrived, and these lose one byte each;
* `receive_stream_iff`: when no call is in progress, what has been returned and what is stored or
  held is what has arrived exactly if no event of the run has lost a byte. -/

namespace Stm32TcpServer.Uart.RxStream

open Stm32TcpServer.Lib.Runs Stm32TcpServer.Lib.Window
open Stm32TcpServer.Uart.Dma Stm32TcpServer.Uart.Com2Rx

/-- The receive side, the call in progress, and the bytes that have arrived and been returned. -/
structure Sys where
  rx : Rx
  frame : Option Frame
  arrived : List UInt8
  returned : List UInt8
deriving DecidableEq

/-- The state `InitCom2Con` leaves. -/
def Sys.init : Sys := { rx := Rx.init, frame := none, arrived := [], returned := [] }

/-- A call begins or executes a statement, a byte arrives, or an interrupt handler runs. -/
inductive Event
  | call (pBuf : List UInt8)
  | stmt
  | arrive (b : UInt8)
  | idleIrq
  | tcIrq
deriving DecidableEq

/-- **One step.** The array passed to a call has room for the buffer. -/
def step (s : Sys) : Event → Option Sys
  | .call pBuf =>
    if s.frame = none ∧ uartRecvBuf ≤ pBuf.length then some { s with frame := some (enter pBuf) }
    else none
  | .stmt => s.frame.map fun f =>
    if f.pc = .ret then { s with frame := none, returned := s.returned ++ f.pBuf.take f.cnt }
    else { s with rx := (stmt s.rx f).1, frame := some (stmt s.rx f).2 }
  | .arrive b => some { s with rx := s.rx.arrive b, arrived := s.arrived ++ [b] }
  | .idleIrq => some { s with rx := s.rx.usart2IrqHandler }
  | .tcIrq => some { s with rx := s.rx.dma1Channel6IrqHandler }

/-- The call has sampled a count that it is going to return, and the channel is still on. -/
def sampled (o : Option Frame) : Bool := o.any fun f => (f.pc == .check || f.pc == .stop) && 0 < f.cnt

/-- The bytes of the buffer and of the call in progress that are still going to be returned. -/
def pending (r : Rx) (f : Frame) : List UInt8 :=
  match f.pc with
  | .test | .sample => r.stored
  | .check | .stop => if 0 < f.cnt then r.sCom2RxBuf.take f.cnt else r.stored
  | .copy => r.sCom2RxBuf.take f.cnt
  | .flag | .reload | .start => f.pBuf.take f.cnt
  | .ret => f.pBuf.take f.cnt ++ r.stored

/-- The bytes in the USART, the buffer and the call in progress that are still going to be
returned. -/
def live (r : Rx) (o : Option Frame) : List UInt8 := o.elim r.stored (pending r) ++ r.dr.toList

/-- **The bytes returned or still going to be.** -/
def kept (s : Sys) : List UInt8 := s.returned ++ live s.rx s.frame

/-- **The event loses no byte.** -/
def Kept (s : Sys) : Event → Prop
  | .arrive _ => if s.rx.channel6.Ready then sampled s.frame = false else s.rx.dr = none
  | .idleIrq => s.rx.dr = none
  | _ => True

instance (s : Sys) (e : Event) : Decidable (Kept s e) := by
  unfold Kept
  cases e <;> infer_instance

theorem kept_arrive_ready {s : Sys} {b : UInt8} (hr : s.rx.channel6.Ready) :
    Kept s (.arrive b) ↔ sampled s.frame = false := iff_of_eq (if_pos hr)

theorem kept_arrive_not_ready {s : Sys} {b : UInt8} (hr : ¬ s.rx.channel6.Ready) :
    Kept s (.arrive b) ↔ s.rx.dr = none := iff_of_eq (if_neg hr)

/-- The byte that an event brings. -/
def news : Event → List UInt8
  | .arrive b => [b]
  | _ => []

/-! ### The invariant -/

/-- What holds of the receive side at all times. -/
structure Ok (r : Rx) : Prop where
  bufLen : r.sCom2RxBuf.length = uartRecvBuf
  le : r.channel6.cndtr ≤ uartRecvBuf
  /-- The USART holds a byte only if the channel does not take it. -/
  held : r.channel6.Ready → r.dr = none

/-- The channel is on. -/
def On (r : Rx) : Prop := r.channel6.en = true ∧ r.channel6.initial = uartRecvBuf

/-- What holds before each statement of a call. -/
def FrameInv (r : Rx) (f : Frame) : Prop :=
  uartRecvBuf ≤ f.pBuf.length ∧
  match f.pc with
  | .test => On r ∧ f.cnt = 0
  | .sample => On r
  | .check => On r ∧ f.cnt ≤ uartRecvBuf - r.channel6.cndtr
  | .stop => On r ∧ 0 < f.cnt ∧ f.cnt ≤ uartRecvBuf - r.channel6.cndtr
  | .copy => r.channel6.en = false ∧ f.i ≤ f.cnt ∧ f.cnt ≤ uartRecvBuf ∧
      f.pBuf.take f.i = r.sCom2RxBuf.take f.i
  | .flag | .reload => r.channel6.en = false ∧ f.cnt ≤ uartRecvBuf
  | .start => r.channel6.en = false ∧ r.channel6.cndtr = uartRecvBuf
  | .ret => On r

/-- What a state says about the call in progress, if there is one. -/
def CallInv (r : Rx) (o : Option Frame) : Prop := o.elim (On r) (FrameInv r)

theorem on_of_en {r : Rx} {o : Option Frame} (h : CallInv r o) (hen : r.channel6.en = true) :
    On r := by
  cases o with
  | none => exact h
  | some f =>
    obtain ⟨-, h⟩ := h
    cases hpc : f.pc <;> simp only [hpc] at h
    case sample | ret => exact h
    case test | check | stop => exact h.1
    all_goals simp [hen] at h

/-! ### A byte arrives -/

theorem Ok.receiving {r : Rx} (hok : Ok r) (hr : r.channel6.Ready) (hon : On r) : Receiving r :=
  ⟨hok.bufLen, hok.le, hon.1, hon.2, hok.held hr⟩

theorem arrive_ready {r : Rx} (b : UInt8) (hok : Ok r) (hr : r.channel6.Ready) (hon : On r) :
    Ok (r.arrive b) ∧ On (r.arrive b) ∧ (r.arrive b).stored = r.stored ++ [b] ∧
      (r.arrive b).dr = none ∧ (r.arrive b).channel6.cndtr = r.channel6.cndtr - 1 ∧
      ∀ n ≤ uartRecvBuf - r.channel6.cndtr,
        (r.arrive b).sCom2RxBuf.take n = r.sCom2RxBuf.take n := by
  have hpos := hr.2
  have hrec := hok.receiving hr hon
  have hlen := hrec.length_stored
  obtain ⟨hrec', hst, hch, hbuf, -⟩ := arrive_eq b hrec (by have := hok.le; rw [hlen]; omega)
  refine ⟨⟨hrec'.bufLen, hrec'.le, fun _ => hrec'.dr⟩, ⟨hrec'.en, hrec'.initial⟩, hst, hrec'.dr,
    by rw [hch]; rfl, fun n hn => ?_⟩
  rw [hbuf, ← window_zero_left, window_set_of_le _ _ (by omega), window_zero_left]

theorem live_arrive_ready {r : Rx} {o : Option Frame} (b : UInt8) (hok : Ok r) (hi : CallInv r o)
    (hr : r.channel6.Ready) :
    Ok (r.arrive b) ∧ CallInv (r.arrive b) o ∧
      live (r.arrive b) o = if sampled o = false then live r o ++ [b] else live r o := by
  have hon := on_of_en hi hr.1
  obtain ⟨hok', hon', hst, hdr, hcn, htake⟩ := arrive_ready b hok hr hon
  have hdr0 := hok.held hr
  refine ⟨hok', ?_, ?_⟩
  · cases o with
    | none => exact hon'
    | some f =>
      obtain ⟨hbuf, h⟩ := hi
      refine ⟨hbuf, ?_⟩
      cases hpc : f.pc <;> simp only [hpc] at h ⊢
      case test => exact ⟨hon', h.2⟩
      case sample | ret => exact hon'
      case check => exact ⟨hon', by rw [hcn]; omega⟩
      case stop => exact ⟨hon', h.2.1, by rw [hcn]; omega⟩
      all_goals simp [hr.1] at h
  · cases o with
    | none => simp [live, hdr, hdr0, hst, sampled]
    | some f =>
      obtain ⟨hbuf, h⟩ := hi
      cases hpc : f.pc <;> simp only [hpc] at h <;>
        simp only [live, pending, sampled, Option.any, hpc, Option.elim, hdr, hdr0, hst]
      case test | sample | ret => simp
      case check | stop =>
        by_cases hcnt : 0 < f.cnt
        · simp [hcnt, htake f.cnt (by omega)]
        · simp [hcnt]
      all_goals simp [hr.1] at h

theorem live_arrive_not_ready {r : Rx} {o : Option Frame} (b : UInt8) (hok : Ok r)
    (hi : CallInv r o) (hr : ¬ r.channel6.Ready) :
    Ok (r.arrive b) ∧ CallInv (r.arrive b) o ∧
      live (r.arrive b) o = if r.dr = none then live r o ++ [b] else live r o := by
  have heq : r.arrive b = { r with dr := some (r.dr.getD b) } := by rw [Rx.arrive, if_neg hr]
  rw [heq]
  refine ⟨⟨hok.bufLen, hok.le, fun h => absurd h hr⟩, ?_, ?_⟩
  · cases o <;> exact hi
  · have hp : o.elim ({ r with dr := some (r.dr.getD b) } : Rx).stored
        (pending { r with dr := some (r.dr.getD b) }) = o.elim r.stored (pending r) := by
      cases o <;> rfl
    rw [live, hp]
    cases hdr : r.dr <;> simp [live, hdr]

/-! ### The statements of a call -/

theorem not_ready_of_en {r : Rx} (h : r.channel6.en = false) : ¬ r.channel6.Ready := by
  simp [Channel.Ready, h]

/-- A channel that is off is started: it takes the byte that the USART holds. -/
theorem start_spec {r : Rx} (hok : Ok r) (hen : r.channel6.en = false)
    (hcn : r.channel6.cndtr = uartRecvBuf) :
    Ok r.start ∧ On r.start ∧ r.start.stored ++ r.start.dr.toList = r.dr.toList := by
  have hr : r.channel6.enable.Ready :=
    ⟨Channel.enable_en _, by rw [Channel.enable_cndtr, hcn]; decide⟩
  have hini : r.channel6.enable.initial = uartRecvBuf := by
    rw [Channel.enable_initial, hen, hcn]; rfl
  have hon : On { r with channel6 := r.channel6.enable } := ⟨Channel.enable_en _, hini⟩
  cases hdr : r.dr with
  | none =>
    have heq : r.start = { r with channel6 := r.channel6.enable } := by simp [Rx.start, hdr]
    rw [heq]
    refine ⟨⟨hok.bufLen, by rw [Channel.enable_cndtr]; exact hok.le, fun _ => hdr⟩, hon, ?_⟩
    simp [Rx.stored, hcn, hdr]
  | some b =>
    -- the same transfer as for a byte that arrives just after the start
    have heq : r.start = ({ r with channel6 := r.channel6.enable, dr := none } : Rx).arrive b := by
      simp [Rx.start, Rx.arrive, hdr, hr, Rx.take]
    have hok' : Ok { r with channel6 := r.channel6.enable, dr := none } :=
      ⟨hok.bufLen, by rw [Channel.enable_cndtr]; exact hok.le, fun _ => rfl⟩
    obtain ⟨h1, h2, h3, h4, -⟩ := arrive_ready b hok' hr hon
    rw [heq]
    refine ⟨h1, h2, ?_⟩
    rw [h3, h4]
    simp [Rx.stored, hcn]

/-- **One statement of a call** moves bytes, and loses none. -/
theorem stmt_live {r : Rx} {f : Frame} (hok : Ok r) (h : FrameInv r f) (hret : f.pc ≠ .ret) :
    Ok (stmt r f).1 ∧ FrameInv (stmt r f).1 (stmt r f).2 ∧
      live (stmt r f).1 (some (stmt r f).2) = live r (some f) := by
  obtain ⟨hbuf, h⟩ := h
  have hrb : uartRecvBuf = 50 := rfl
  cases hpc : f.pc <;> simp only [hpc] at h <;>
    simp only [FrameInv, live, Option.elim, pending, stmt, hpc]
  case test =>
    by_cases hfl : r.sCom2ReadFlag = 1
    · simp only [hfl, if_true]
      exact ⟨hok, ⟨hbuf, h.1⟩, trivial⟩
    · simp only [hfl, if_false]
      exact ⟨hok, ⟨hbuf, h.1⟩, by rw [h.2, List.take_zero, List.nil_append]⟩
  case sample =>
    rw [u8_of_lt (by omega)]
    refine ⟨hok, ⟨hbuf, h, Nat.le_refl _⟩, ?_⟩
    rw [Rx.stored, ite_self]
  case check =>
    by_cases hcnt : 0 < f.cnt
    · simp only [hcnt, if_true]
      exact ⟨hok, ⟨hbuf, h.1, trivial, h.2⟩, trivial⟩
    · simp only [hcnt, if_false]
      refine ⟨hok, ⟨hbuf, h.1⟩, ?_⟩
      rw [show f.cnt = 0 by omega, List.take_zero, List.nil_append]
  case stop =>
    obtain ⟨hon, hcnt, hle⟩ := h
    refine ⟨⟨hok.bufLen, hok.le, fun hr => absurd hr (not_ready_of_en rfl)⟩,
      ⟨hbuf, rfl, Nat.zero_le _, by omega, by simp⟩, ?_⟩
    simp [hcnt, Rx.stop]
  case copy =>
    obtain ⟨hen, hi, hle, hcopied⟩ := h
    have hlen := hok.bufLen
    by_cases hlt : f.i < f.cnt
    · simp only [hlt, if_true]
      refine ⟨hok, ⟨by simpa using hbuf, hen, hlt, hle, ?_⟩, trivial⟩
      rw [take_set_succ _ (by omega), hcopied, List.getD_eq_getElem _ _ (by omega),
        List.take_append_getElem]
    · have hi' : f.i = f.cnt := Nat.le_antisymm hi (Nat.not_lt.mp hlt)
      rw [hi'] at hcopied
      simp only [hlt, if_false]
      exact ⟨hok, ⟨hbuf, hen, hle⟩, by rw [hcopied]⟩
  case flag => exact ⟨⟨hok.bufLen, hok.le, hok.held⟩, ⟨hbuf, h⟩, trivial⟩
  case reload =>
    have hcn := Channel.setCndtr_cndtr h.1 uartRecvBuf
    have hen : (r.setCndtr uartRecvBuf).channel6.en = false := by simp [Rx.setCndtr, h.1]
    exact ⟨⟨hok.bufLen, Nat.le_of_eq hcn, fun hr => absurd hr (not_ready_of_en hen)⟩,
      ⟨hbuf, hen, hcn⟩, rfl⟩
  case start =>
    obtain ⟨hok', hon, hlive⟩ := start_spec hok h.1 h.2
    exact ⟨hok', ⟨hbuf, hon⟩, by rw [List.append_assoc, hlive]⟩
  case ret => exact absurd hpc hret

/-! ### The interrupt handlers -/

/-- The idle interrupt reads the data register. -/
theorem live_usart2IrqHandler {r : Rx} {o : Option Frame} (hok : Ok r) (hi : CallInv r o) :
    Ok r.usart2IrqHandler ∧ CallInv r.usart2IrqHandler o ∧
      live r.usart2IrqHandler o ++ r.dr.toList = live r o := by
  refine ⟨⟨hok.bufLen, hok.le, fun _ => rfl⟩, by cases o <;> exact hi, ?_⟩
  have hp : o.elim r.usart2IrqHandler.stored (pending r.usart2IrqHandler) =
      o.elim r.stored (pending r) := by cases o <;> rfl
  rw [live, hp, live, Rx.usart2IrqHandler, Option.toList_none, List.append_nil]

theorem live_dma1Channel6IrqHandler {r : Rx} {o : Option Frame} (hok : Ok r) (hi : CallInv r o) :
    Ok r.dma1Channel6IrqHandler ∧ CallInv r.dma1Channel6IrqHandler o ∧
      live r.dma1Channel6IrqHandler o = live r o := by
  unfold Rx.dma1Channel6IrqHandler
  split_ifs
  · exact ⟨⟨hok.bufLen, hok.le, hok.held⟩, by cases o <;> exact hi, by cases o <;> rfl⟩
  · exact ⟨hok, hi, rfl⟩

/-! ### Runs -/

theorem arrived_step {s s' : Sys} {e : Event} (hs : step s e = some s') :
    s'.arrived = s.arrived ++ news e := by
  cases e with
  | call pBuf =>
    obtain ⟨-, rfl⟩ := guard_eq_some hs
    exact (List.append_nil _).symm
  | stmt =>
    obtain ⟨f, -, rfl⟩ := Option.map_eq_some_iff.mp hs
    split_ifs <;> exact (List.append_nil _).symm
  | arrive b => obtain rfl := Option.some.inj hs; rfl
  | idleIrq | tcIrq => obtain rfl := Option.some.inj hs; exact (List.append_nil _).symm

theorem kept_arrive {s : Sys} {b : UInt8} {C : Prop} [Decidable C] (hiff : Kept s (.arrive b) ↔ C)
    (hl : live (s.rx.arrive b) s.frame = if C then live s.rx s.frame ++ [b] else live s.rx s.frame) :
    if Kept s (.arrive b) then
      kept { s with rx := s.rx.arrive b, arrived := s.arrived ++ [b] } = kept s ++ [b]
    else (kept { s with rx := s.rx.arrive b, arrived := s.arrived ++ [b] }).length + 1 =
      (kept s).length + 1 := by
  by_cases hk : C
  · rw [if_pos (hiff.mpr hk)]
    rw [if_pos hk] at hl
    simp only [kept, hl, List.append_assoc]
  · have hk' : ¬ Kept s (.arrive b) := fun h => hk (hiff.mp h)
    rw [if_neg hk']
    rw [if_neg hk] at hl
    simp only [kept, hl]

/-- **An event keeps the byte it brings and all earlier ones, or it loses one of them.** -/
theorem step_kept {s s' : Sys} {e : Event} (hok : Ok s.rx) (hi : CallInv s.rx s.frame)
    (hs : step s e = some s') : Ok s'.rx ∧ CallInv s'.rx s'.frame ∧
      if Kept s e then kept s' = kept s ++ news e
      else (kept s').length + 1 = (kept s).length + (news e).length := by
  cases e with
  | call pBuf =>
    obtain ⟨hg, rfl⟩ := guard_eq_some hs
    obtain ⟨hf, hbuf⟩ := hg
    rw [hf] at hi
    refine ⟨hok, ⟨hbuf, hi, rfl⟩, ?_⟩
    rw [if_pos (show Kept s (.call pBuf) from trivial)]
    simp [kept, live, hf, enter, pending, news]
  | stmt =>
    obtain ⟨f, hf, rfl⟩ := Option.map_eq_some_iff.mp hs
    have hf' : FrameInv s.rx f := by rw [hf] at hi; exact hi
    rw [if_pos (show Kept s .stmt from trivial)]
    split_ifs with hret
    · obtain ⟨-, hon⟩ := hf'
      simp only [hret] at hon
      exact ⟨hok, hon, by simp [kept, live, hf, pending, hret, news]⟩
    · obtain ⟨hok', hi', hl⟩ := stmt_live hok hf' hret
      exact ⟨hok', hi', by simp only [kept, hl, hf, news, List.append_nil]⟩
  | arrive b =>
    obtain rfl := Option.some.inj hs
    by_cases hr : s.rx.channel6.Ready
    · obtain ⟨hok', hi', hl⟩ := live_arrive_ready b hok hi hr
      exact ⟨hok', hi', kept_arrive (kept_arrive_ready hr) hl⟩
    · obtain ⟨hok', hi', hl⟩ := live_arrive_not_ready b hok hi hr
      exact ⟨hok', hi', kept_arrive (kept_arrive_not_ready hr) hl⟩
  | idleIrq =>
    obtain rfl := Option.some.inj hs
    obtain ⟨hok', hi', hl⟩ := live_usart2IrqHandler hok hi
    refine ⟨hok', hi', ?_⟩
    rcases hdr : s.rx.dr with _ | b
    · rw [if_pos (show Kept s .idleIrq from hdr)]
      rw [hdr, Option.toList_none, List.append_nil] at hl
      simp only [kept, hl, news, List.append_nil]
    · -- the handler reads the byte out of the USART
      have hk : ¬ Kept s .idleIrq := fun h => Option.some_ne_none b (hdr.symm.trans h)
      rw [if_neg hk]
      rw [hdr, Option.toList_some] at hl
      simp only [kept, ← hl, news, List.length_append, List.length_singleton, List.length_nil]
      omega
  | tcIrq =>
    obtain rfl := Option.some.inj hs
    obtain ⟨hok', hi', hl⟩ := live_dma1Channel6IrqHandler hok hi
    rw [if_pos (show Kept s .tcIrq from trivial)]
    exact ⟨hok', hi', by simp only [kept, hl, news, List.append_nil]⟩

/-- **The invariant of the receive side.** -/
structure Inv (s : Sys) : Prop where
  ok : Ok s.rx
  calling : CallInv s.rx s.frame
  le : (kept s).length ≤ s.arrived.length

theorem inv_init : Inv Sys.init := by
  refine ⟨⟨by simp [Sys.init, Rx.init], by simp [Sys.init, Rx.init], fun _ => rfl⟩, ⟨rfl, rfl⟩, ?_⟩
  simp [kept, live, Sys.init, Rx.init, Rx.stored]

/-- How many bytes have been lost. -/
def lost (s : Sys) : ℕ := s.arrived.length - (kept s).length

theorem inv_step (s : Sys) (e : Event) (s' : Sys) (h : Inv s) (hs : step s e = some s') :
    Inv s' ∧ lost s' = lost s + if Kept s e then 0 else 1 := by
  obtain ⟨hok, hi, hk⟩ := step_kept h.ok h.calling hs
  have harr := congrArg List.length (arrived_step hs)
  have hle := h.le
  have hlen : (kept s').length + (if Kept s e then 0 else 1) =
      (kept s).length + (news e).length := by
    split_ifs at hk ⊢
    · simp [hk]
    · exact hk
  rw [List.length_append] at harr
  exact ⟨⟨hok, hi, by omega⟩, by unfold lost; omega⟩

theorem kept_eq_arrived {es : List Event} {s : Sys} (hr : run step Sys.init es = some s)
    (hk : Along step Kept Sys.init es) : kept s = s.arrived := by
  have hinit : kept Sys.init = Sys.init.arrived := by
    simp [kept, live, Sys.init, Rx.init, Rx.stored]
  refine (invariant (fun s => Inv s ∧ kept s = s.arrived) (fun s e s' h hG hs => ?_)
    ⟨inv_init, hinit⟩ hk hr).2
  obtain ⟨hi, heq⟩ := h
  obtain ⟨-, -, hk⟩ := step_kept hi.ok hi.calling hs
  rw [if_pos hG] at hk
  exact ⟨(inv_step s e s' hi hs).1, by rw [hk, arrived_step hs, heq]⟩

/-- **The receive stream.** When no call is in progress, the bytes returned by the calls, those
stored in `sCom2RxBuf` and the one the USART holds are the bytes that have arrived, in this order,
exactly if no event of the run has lost a byte. -/
theorem receive_stream_iff {es : List Event} {s : Sys} (hr : run step Sys.init es = some s)
    (hf : s.frame = none) :
    s.returned ++ s.rx.stored ++ s.rx.dr.toList = s.arrived ↔ Along step Kept Sys.init es := by
  have hkept : kept s = s.returned ++ s.rx.stored ++ s.rx.dr.toList := by
    simp [kept, live, hf]
  rw [← hkept]
  refine ⟨fun heq => ?_, kept_eq_arrived hr⟩
  have hcount := count_invariant Kept lost inv_step inv_init hr
  have h0 : lost s = 0 := by unfold lost; rw [heq, Nat.sub_self]
  exact (count_eq_zero_iff hr).mp (by omega)

/-- `ab` is read, and `c` arrives after the read. -/
def runKept : List Event :=
  [.arrive 97, .arrive 98, .idleIrq, .call (List.replicate 50 0)] ++ List.replicate 11 .stmt ++
    [.arrive 99]

theorem receive_stream_abc : ∃ s, run step Sys.init runKept = some s ∧ s.returned = [97, 98] ∧
    (s.returned ++ s.rx.stored ++ s.rx.dr.toList = s.arrived ↔
      Along step Kept Sys.init runKept) := by
  obtain ⟨s, hs, he⟩ := Option.map_eq_some_iff.mp
    (show (run step Sys.init runKept).map (fun s => (s.frame, s.returned)) = some (none, [97, 98]) by
      decide)
  exact ⟨s, hs, congrArg Prod.snd he, receive_stream_iff hs (congrArg Prod.fst he)⟩

/-- `a` arrives and the line goes idle; `b` arrives after `ReadCom2Data` has sampled the count 1 and
before it stops the channel. -/
def runLost : List Event :=
  [.arrive 97, .idleIrq, .call (List.replicate 50 0), .stmt, .stmt, .stmt, .arrive 98] ++
    List.replicate 7 .stmt

/-- **A byte is lost**: `b` is neither returned nor stored nor held. -/
theorem received_byte_lost : ∃ s, run step Sys.init runLost = some s ∧ s.frame = none ∧
    s.arrived = [97, 98] ∧ s.returned ++ s.rx.stored ++ s.rx.dr.toList = [97] := by
  obtain ⟨s, hs, he⟩ := Option.map_eq_some_iff.mp
    (show (run step Sys.init runLost).map (fun s =>
        (s.frame, s.arrived, s.returned ++ s.rx.stored ++ s.rx.dr.toList)) =
      some (none, [97, 98], [97]) by decide)
  simp only [Prod.mk.injEq] at he
  exact ⟨s, hs, he⟩

end Stm32TcpServer.Uart.RxStream
