import Stm32TcpServer.Lib.Steps
import Stm32TcpServer.Uart.Dma
import Mathlib.Data.List.GetD

/-! # `SendCom2Data` (UartCom2.c)

The state of the transmit side of COM2: the buffer `sCom2TxDmaBuf` that DMA channel 7 reads, the
flag and the length kept beside it, and the channel. `SendCom2Data` is given twice:

* `stmt`: one statement of a call in progress, whose locals are in a `Frame`; between two statements
  the DMA may move bytes (`Tx.beat`) or an interrupt may come;
* `sendCom2Data`: the whole call in one step, as an interrupt handler executes it.

`reaches_sendCom2Data`: a call whose statements are executed without interruption is `sendCom2Data`.

Beside the variables of the program the state keeps what has been observed: the bytes sent (`wire`),
how many of them left before a call first stopped the channel (`zeros`), whether an index ever fell
outside `sCom2TxDmaBuf` (`oob`), and the calls that have returned (`calls`). -/

namespace Stm32TcpServer.Uart.Com2Tx

open Stm32TcpServer.Lib.Steps
open Stm32TcpServer.Uart.Dma

/-- `UART_SEND_BUF`. -/
abbrev uartSendBuf : ℕ := 100

/-- A call that has returned. -/
structure Call where
  pBuf : List UInt8
  len : ℕ
  /-- The bytes accepted before the call and not sent when it stopped the channel. -/
  q : ℕ
  ret : ℕ
deriving DecidableEq

/-- The bytes a call accepted: the first `ret` of its buffer. -/
def Call.accepted (c : Call) : List UInt8 := c.pBuf.take c.ret

/-- The bytes accepted by a sequence of calls. -/
def accepted (calls : List Call) : List UInt8 := (calls.map Call.accepted).flatten

/-- **The transmit side of COM2.** -/
structure Tx where
  sCom2TxDmaBuf : List UInt8
  sCom2SendFlag : ℕ
  sCom2SendLen : ℕ
  channel7 : Channel
  wire : List UInt8
  zeros : Option ℕ
  oob : Bool
  calls : List Call
deriving DecidableEq

namespace Tx

/-- The state `InitCom2Con` leaves: channel 7 is on, with 100 zero bytes to send. -/
def init : Tx where
  sCom2TxDmaBuf := List.replicate uartSendBuf 0
  sCom2SendFlag := 0
  sCom2SendLen := 0
  channel7 := { en := true, cndtr := uartSendBuf, initial := uartSendBuf, tc := false }
  wire := []
  zeros := none
  oob := false
  calls := []

/-- `DMA1_Channel7_IRQHandler`. -/
def dma1Channel7IrqHandler (t : Tx) : Tx :=
  if t.channel7.tc then
    { t with sCom2SendFlag := 0, channel7 := t.channel7.clearTc.disable }
  else t

/-- **One byte moved by channel 7**, followed by the transfer-complete interrupt if it was the
last. -/
def beat (t : Tx) : Option Tx :=
  if t.channel7.Ready then
    some (dma1Channel7IrqHandler
      { t with
        channel7 := t.channel7.beat
        wire := t.wire ++ [t.sCom2TxDmaBuf.getD t.channel7.next 0]
        oob := t.oob || decide (uartSendBuf ≤ t.channel7.next) })
  else none

/-- `DMA_Cmd(DMA1_Channel7, DISABLE)` in a call. -/
def stop (t : Tx) : Tx :=
  { t with channel7 := t.channel7.disable, zeros := some (t.zeros.getD t.wire.length) }

/-- `DMA_Cmd(DMA1_Channel7, ENABLE)`. -/
def start (t : Tx) : Tx := { t with channel7 := t.channel7.enable }

/-- `DMA1_Channel7->CNDTR = n`. -/
def setCndtr (t : Tx) (n : ℕ) : Tx := { t with channel7 := t.channel7.setCndtr n }

/-- `sCom2TxDmaBuf[i] = b`. -/
def store (t : Tx) (i : ℕ) (b : UInt8) : Tx :=
  { t with sCom2TxDmaBuf := t.sCom2TxDmaBuf.set i b, oob := t.oob || decide (uartSendBuf ≤ i) }

/-- `sCom2TxDmaBuf[i] = sCom2TxDmaBuf[i+cnt]`. -/
def shift (t : Tx) (i cnt : ℕ) : Tx :=
  { t with
    sCom2TxDmaBuf := t.sCom2TxDmaBuf.set i (t.sCom2TxDmaBuf.getD (i + cnt) 0)
    oob := t.oob || decide (uartSendBuf ≤ i) || decide (uartSendBuf ≤ i + cnt) }

/-- The bytes accepted by the calls that have returned and not sent yet. -/
def unsent (t : Tx) : ℕ :=
  (accepted t.calls).length - (t.wire.length - t.zeros.getD t.wire.length)

/-- The bytes in the window of channel 7: those it still sends if it is on. -/
def inWindow (t : Tx) : List UInt8 :=
  if t.channel7.en then (t.sCom2TxDmaBuf.drop t.channel7.next).take t.channel7.cndtr else []

end Tx

/-! ### The statements of a call -/

/-- Where a call stands; the `busy` statements are those of the branch for `sCom2SendFlag == 1`. -/
inductive Pc
  | test
  | busyStop | busyTmp | busyCnt | busyShift | busyClamp | busyCopy | busyRet | busyLen | busyCndtr
  | busyFlag | busyStart
  | idleStop | idleClamp | idleCopy | idleRet | idleLen | idleCndtr | idleFlag | idleStart
  | ret
deriving DecidableEq

/-- A call in progress: its arguments and locals. `len0` is the length passed, `q` as in `Call`. -/
structure Frame where
  pc : Pc
  pBuf : List UInt8
  len : ℕ
  len0 : ℕ
  tmp : ℕ
  cnt : ℕ
  i : ℕ
  q : ℕ
deriving DecidableEq

/-- The call `SendCom2Data(pBuf, len)` on entry. -/
def enter (pBuf : List UInt8) (len : ℕ) : Frame where
  pc := .test
  pBuf := pBuf
  len := len
  len0 := len
  tmp := 0
  cnt := 0
  i := 0
  q := 0

/-- **One statement of a call.** The last one, `return cnt`, is `Frame.call`. -/
def stmt (t : Tx) (f : Frame) : Tx × Frame :=
  match f.pc with
  | .test => (t, { f with pc := if t.sCom2SendFlag = 1 then .busyStop else .idleStop })
  -- the transfer is under way
  | .busyStop => (t.stop, { f with pc := .busyTmp, q := t.stop.unsent })
  | .busyTmp => (t, { f with pc := .busyCnt, tmp := u8 t.channel7.cndtr })
  | .busyCnt => (t, { f with pc := .busyShift, cnt := u8Sub t.sCom2SendLen f.tmp, i := 0 })
  | .busyShift =>
    if f.i < f.tmp then (t.shift f.i f.cnt, { f with i := f.i + 1 })
    else (t, { f with pc := .busyClamp })
  | .busyClamp =>
    (t, { f with
      pc := .busyCopy
      len := if uartSendBuf < f.len + f.tmp then u8Sub uartSendBuf f.tmp else f.len
      i := 0 })
  | .busyCopy =>
    if f.i < f.len then (t.store (f.i + f.tmp) (f.pBuf.getD f.i 0), { f with i := f.i + 1 })
    else (t, { f with pc := .busyRet })
  | .busyRet => (t, { f with pc := .busyLen, cnt := f.len })
  | .busyLen => ({ t with sCom2SendLen := u8 (f.len + f.tmp) }, { f with pc := .busyCndtr })
  | .busyCndtr => (t.setCndtr (f.len + f.tmp), { f with pc := .busyFlag })
  | .busyFlag => ({ t with sCom2SendFlag := 1 }, { f with pc := .busyStart })
  | .busyStart => (t.start, { f with pc := .ret })
  -- no transfer is under way
  | .idleStop => (t.stop, { f with pc := .idleClamp, q := t.stop.unsent })
  | .idleClamp =>
    (t, { f with
      pc := .idleCopy
      len := if uartSendBuf < f.len then uartSendBuf else f.len
      i := 0 })
  | .idleCopy =>
    if f.i < f.len then (t.store f.i (f.pBuf.getD f.i 0), { f with i := f.i + 1 })
    else (t, { f with pc := .idleRet })
  | .idleRet => (t, { f with pc := .idleLen, cnt := f.len })
  | .idleLen => ({ t with sCom2SendLen := f.len }, { f with pc := .idleCndtr })
  | .idleCndtr => (t.setCndtr f.len, { f with pc := .idleFlag })
  | .idleFlag => ({ t with sCom2SendFlag := 1 }, { f with pc := .idleStart })
  | .idleStart => (t.start, { f with pc := .ret })
  | .ret => (t, f)

/-- The call a finished frame has made. -/
def Frame.call (f : Frame) : Call := { pBuf := f.pBuf, len := f.len0, q := f.q, ret := f.cnt }

/-- `return cnt`. -/
def Tx.finish (t : Tx) (f : Frame) : Tx := { t with calls := t.calls ++ [f.call] }

theorem stmt_calls (t : Tx) (f : Frame) : (stmt t f).1.calls = t.calls := by
  unfold stmt
  split <;> first | rfl | (split_ifs <;> rfl)

theorem finish_calls (t : Tx) (f : Frame) : (t.finish f).calls = t.calls ++ [f.call] := rfl

/-! ### The whole call -/

/-- `for (k = i; k < i + n; k++) body`. -/
def forUp {σ : Type} (body : ℕ → σ → σ) : ℕ → ℕ → σ → σ
  | _, 0, s => s
  | i, n + 1, s => forUp body (i + 1) n (body i s)

/-- **`SendCom2Data(pBuf, len)`**, with the value it returns. -/
def sendCom2Data (t : Tx) (pBuf : List UInt8) (len : ℕ) : Tx × ℕ :=
  if t.sCom2SendFlag = 1 then
    let t := t.stop
    let q := t.unsent
    let tmp := u8 t.channel7.cndtr
    let cnt := u8Sub t.sCom2SendLen tmp
    let t := forUp (fun i t => t.shift i cnt) 0 tmp t
    let len0 := len
    let len := if uartSendBuf < len + tmp then u8Sub uartSendBuf tmp else len
    let t := forUp (fun i t => t.store (i + tmp) (pBuf.getD i 0)) 0 len t
    let cnt := len
    let t := { t with sCom2SendLen := u8 (len + tmp) }
    let t := t.setCndtr (len + tmp)
    let t := { t with sCom2SendFlag := 1 }
    let t := t.start
    ({ t with calls := t.calls ++ [{ pBuf, len := len0, q, ret := cnt }] }, cnt)
  else
    let t := t.stop
    let q := t.unsent
    let len0 := len
    let len := if uartSendBuf < len then uartSendBuf else len
    let t := forUp (fun i t => t.store i (pBuf.getD i 0)) 0 len t
    let cnt := len
    let t := { t with sCom2SendLen := len }
    let t := t.setCndtr len
    let t := { t with sCom2SendFlag := 1 }
    let t := t.start
    ({ t with calls := t.calls ++ [{ pBuf, len := len0, q, ret := cnt }] }, cnt)

/-- The statements of a call, one after the other. -/
def next (x : Tx × Frame) : Tx × Frame := stmt x.1 x.2

theorem stmt_busyShift_lt {t : Tx} {f : Frame} (hpc : f.pc = .busyShift) (h : f.i < f.tmp) :
    stmt t f = (t.shift f.i f.cnt, { f with i := f.i + 1 }) := by
  simp [stmt, hpc, h]

theorem stmt_busyCopy_lt {t : Tx} {f : Frame} (hpc : f.pc = .busyCopy) (h : f.i < f.len) :
    stmt t f = (t.store (f.i + f.tmp) (f.pBuf.getD f.i 0), { f with i := f.i + 1 }) := by
  simp [stmt, hpc, h]

theorem stmt_idleCopy_lt {t : Tx} {f : Frame} (hpc : f.pc = .idleCopy) (h : f.i < f.len) :
    stmt t f = (t.store f.i (f.pBuf.getD f.i 0), { f with i := f.i + 1 }) := by
  simp [stmt, hpc, h]

theorem reaches_shift : ∀ (n : ℕ) (t : Tx) (f : Frame), f.pc = .busyShift → f.i + n = f.tmp →
    Reaches next (t, f)
      (forUp (fun i t => t.shift i f.cnt) f.i n t, { f with pc := .busyClamp, i := f.tmp })
  | 0, t, f, hpc, hi => by
    have hi' : f.i = f.tmp := hi
    exact ⟨1, by simp [next, stmt, hpc, forUp, hi']⟩
  | n + 1, t, f, hpc, hi => by
    refine Reaches.head ?_
    rw [next, stmt_busyShift_lt hpc (show f.i < f.tmp by omega)]
    exact reaches_shift n _ { f with i := f.i + 1 } hpc (by simp only; omega)

theorem reaches_busyCopy : ∀ (n : ℕ) (t : Tx) (f : Frame), f.pc = .busyCopy → f.i + n = f.len →
    Reaches next (t, f) (forUp (fun i t => t.store (i + f.tmp) (f.pBuf.getD i 0)) f.i n t,
      { f with pc := .busyRet, i := f.len })
  | 0, t, f, hpc, hi => by
    have hi' : f.i = f.len := hi
    exact ⟨1, by simp [next, stmt, hpc, forUp, hi']⟩
  | n + 1, t, f, hpc, hi => by
    refine Reaches.head ?_
    rw [next, stmt_busyCopy_lt hpc (show f.i < f.len by omega)]
    exact reaches_busyCopy n _ { f with i := f.i + 1 } hpc (by simp only; omega)

theorem reaches_idleCopy : ∀ (n : ℕ) (t : Tx) (f : Frame), f.pc = .idleCopy → f.i + n = f.len →
    Reaches next (t, f) (forUp (fun i t => t.store i (f.pBuf.getD i 0)) f.i n t,
      { f with pc := .idleRet, i := f.len })
  | 0, t, f, hpc, hi => by
    have hi' : f.i = f.len := hi
    exact ⟨1, by simp [next, stmt, hpc, forUp, hi']⟩
  | n + 1, t, f, hpc, hi => by
    refine Reaches.head ?_
    rw [next, stmt_idleCopy_lt hpc (show f.i < f.len by omega)]
    exact reaches_idleCopy n _ { f with i := f.i + 1 } hpc (by simp only; omega)

/-- **A call executed without interruption is `sendCom2Data`.** -/
theorem reaches_sendCom2Data (t : Tx) (pBuf : List UInt8) (len : ℕ) :
    ∃ t' f', Reaches next (t, enter pBuf len) (t', f') ∧ f'.pc = .ret ∧ f'.pBuf = pBuf ∧
      sendCom2Data t pBuf len = (t'.finish f', f'.cnt) := by
  by_cases hflag : t.sCom2SendFlag = 1
  · set tmp := u8 t.stop.channel7.cndtr with htmp
    set cnt := u8Sub t.stop.sCom2SendLen tmp with hcnt
    set l := if uartSendBuf < len + tmp then u8Sub uartSendBuf tmp else len with hl
    set t1 := forUp (fun i t => t.shift i cnt) 0 tmp t.stop with ht1
    set t2 := forUp (fun i t => t.store (i + tmp) (pBuf.getD i 0)) 0 l t1 with ht2
    set f1 : Frame :=
      { enter pBuf len with pc := .busyShift, tmp := tmp, cnt := cnt, q := t.stop.unsent } with hf1
    have h1 : Reaches next (t, enter pBuf len) (t.stop, f1) :=
      ⟨4, by simp [next, stmt, enter, hflag, htmp, hcnt, hf1]⟩
    have h2 : Reaches next (t.stop, f1) (t1, { f1 with pc := .busyClamp, i := tmp }) :=
      reaches_shift tmp _ _ rfl (Nat.zero_add _)
    have h3 : Reaches next (t1, { f1 with pc := .busyClamp, i := tmp })
        (t1, { f1 with pc := .busyCopy, len := l }) := ⟨1, rfl⟩
    have h4 := reaches_busyCopy l t1 { f1 with pc := .busyCopy, len := l } rfl (Nat.zero_add _)
    refine ⟨_, _, ((h1.trans h2).trans (h3.trans h4)).trans ⟨5, rfl⟩, rfl, rfl, ?_⟩
    simp only [sendCom2Data, hflag, if_true]
    rfl
  · set l := if uartSendBuf < len then uartSendBuf else len with hl
    set t1 := forUp (fun i t => t.store i (pBuf.getD i 0)) 0 l t.stop with ht1
    have h1 : Reaches next (t, enter pBuf len)
        (t.stop, { enter pBuf len with pc := .idleCopy, len := l, q := t.stop.unsent }) :=
      ⟨3, by
        simp only [Function.iterate_succ_apply, Function.iterate_zero_apply, next, stmt, enter,
          hflag, if_false, hl]⟩
    have h2 := h1.trans (reaches_idleCopy l _ _ rfl (Nat.zero_add _))
    refine ⟨_, _, h2.trans ⟨5, rfl⟩, rfl, rfl, ?_⟩
    simp only [sendCom2Data, hflag, if_false]
    rfl

end Stm32TcpServer.Uart.Com2Tx
