import Stm32TcpServer.Lib.Steps
import Stm32TcpServer.Lib.Window
import Stm32TcpServer.Uart.Dma
import Mathlib.Data.List.GetD

/-! # `ReadCom2Data` (UartCom2.c)

The state of the receive side of COM2: the buffer `sCom2RxBuf` that DMA channel 6 fills, the flag
that the two interrupt handlers raise, the channel, and the byte the USART holds while the channel
does not take it. `ReadCom2Data` is given twice:

* `stmt`: one statement of a call in progress, whose locals are in a `Frame`;
* `readCom2Data`: the whole call in one step.

`reaches_readCom2Data`: a call whose statements are executed without interruption is
`readCom2Data`. -/

namespace Stm32TcpServer.Uart.Com2Rx

open Stm32TcpServer.Lib.Steps Stm32TcpServer.Lib.Window
open Stm32TcpServer.Uart.Dma

/-- `UART_RECV_BUF`. -/
abbrev uartRecvBuf : ℕ := 50

/-- **The receive side of COM2.** -/
structure Rx where
  sCom2RxBuf : List UInt8
  sCom2ReadFlag : ℕ
  channel6 : Channel
  /-- The byte in `USART2->DR` that channel 6 has not taken. -/
  dr : Option UInt8
deriving DecidableEq

namespace Rx

/-- The state `InitCom2Con` leaves. -/
def init : Rx where
  sCom2RxBuf := List.replicate uartRecvBuf 0
  sCom2ReadFlag := 0
  channel6 := { en := true, cndtr := uartRecvBuf, initial := uartRecvBuf, tc := false }
  dr := none

/-- Channel 6 stores the byte of the data register. -/
def take (r : Rx) (b : UInt8) : Rx :=
  { r with
    sCom2RxBuf := r.sCom2RxBuf.set r.channel6.next b
    channel6 := r.channel6.beat
    dr := none }

/-- **A byte arrives**: the channel takes it, or the data register holds it; while the data register
holds a byte that the channel does not take, the next one is lost. -/
def arrive (r : Rx) (b : UInt8) : Rx :=
  if r.channel6.Ready then r.take b
  else { r with dr := some (r.dr.getD b) }

/-- `DMA_Cmd(DMA1_Channel6, DISABLE)`. -/
def stop (r : Rx) : Rx := { r with channel6 := r.channel6.disable }

/-- `DMA1_Channel6->CNDTR = n`. -/
def setCndtr (r : Rx) (n : ℕ) : Rx := { r with channel6 := r.channel6.setCndtr n }

/-- `DMA_Cmd(DMA1_Channel6, ENABLE)`: the channel takes the byte that the data register holds. -/
def start (r : Rx) : Rx :=
  let r := { r with channel6 := r.channel6.enable }
  match r.dr with
  | some b => if r.channel6.Ready then r.take b else r
  | none => r

/-- **`USART2_IRQHandler`** after an idle line: reading `USART2->DR` clears the flag of the
interrupt and also takes a byte that the channel has not taken. -/
def usart2IrqHandler (r : Rx) : Rx := { r with dr := none, sCom2ReadFlag := 1 }

/-- **`DMA1_Channel6_IRQHandler`.** -/
def dma1Channel6IrqHandler (r : Rx) : Rx :=
  if r.channel6.tc then { r with sCom2ReadFlag := 1, channel6 := r.channel6.clearTc } else r

/-- The bytes stored in `sCom2RxBuf` since channel 6 was started. -/
def stored (r : Rx) : List UInt8 := r.sCom2RxBuf.take (uartRecvBuf - r.channel6.cndtr)

end Rx

/-! ### The statements of a call -/

/-- Where a call stands. -/
inductive Pc
  | test | sample | check | stop | copy | flag | reload | start | ret
deriving DecidableEq

/-- A call in progress: the array of the caller and the locals. -/
structure Frame where
  pc : Pc
  pBuf : List UInt8
  cnt : ℕ
  i : ℕ
deriving DecidableEq

/-- The call `ReadCom2Data(pBuf)` on entry. -/
def enter (pBuf : List UInt8) : Frame := { pc := .test, pBuf := pBuf, cnt := 0, i := 0 }

/-- **One statement of a call.** -/
def stmt (r : Rx) (f : Frame) : Rx × Frame :=
  match f.pc with
  | .test => (r, { f with pc := if r.sCom2ReadFlag = 1 then .sample else .ret })
  | .sample => (r, { f with pc := .check, cnt := u8 (uartRecvBuf - r.channel6.cndtr) })
  | .check => (r, { f with pc := if 0 < f.cnt then .stop else .ret })
  | .stop => (r.stop, { f with pc := .copy, i := 0 })
  | .copy =>
    if f.i < f.cnt then
      (r, { f with pBuf := f.pBuf.set f.i (r.sCom2RxBuf.getD f.i 0), i := f.i + 1 })
    else (r, { f with pc := .flag })
  | .flag => ({ r with sCom2ReadFlag := 0 }, { f with pc := .reload })
  | .reload => (r.setCndtr uartRecvBuf, { f with pc := .start })
  | .start => (r.start, { f with pc := .ret })
  | .ret => (r, f)

/-- The statements of a call, one after the other. -/
def next (x : Rx × Frame) : Rx × Frame := stmt x.1 x.2

/-! ### The whole call -/

/-- `for (i = k; i < k + n; i++) pBuf[i] = sCom2RxBuf[i];` -/
def copyLoop (sCom2RxBuf : List UInt8) : ℕ → ℕ → List UInt8 → List UInt8
  | _, 0, pBuf => pBuf
  | i, n + 1, pBuf => copyLoop sCom2RxBuf (i + 1) n (pBuf.set i (sCom2RxBuf.getD i 0))

/-- **`ReadCom2Data(pBuf)`**, with the array it leaves and the value it returns. -/
def readCom2Data (r : Rx) (pBuf : List UInt8) : Rx × List UInt8 × ℕ :=
  if r.sCom2ReadFlag = 1 then
    let cnt := u8 (uartRecvBuf - r.channel6.cndtr)
    if 0 < cnt then
      let r := r.stop
      let pBuf := copyLoop r.sCom2RxBuf 0 cnt pBuf
      let r := { r with sCom2ReadFlag := 0 }
      let r := r.setCndtr uartRecvBuf
      (r.start, pBuf, cnt)
    else (r, pBuf, cnt)
  else (r, pBuf, 0)

theorem stmt_copy_lt {r : Rx} {f : Frame} (hpc : f.pc = .copy) (h : f.i < f.cnt) :
    stmt r f = (r, { f with pBuf := f.pBuf.set f.i (r.sCom2RxBuf.getD f.i 0), i := f.i + 1 }) := by
  simp [stmt, hpc, h]

theorem reaches_copy : ∀ (n : ℕ) (r : Rx) (f : Frame), f.pc = .copy → f.i + n = f.cnt →
    Reaches next (r, f)
      (r, { f with pc := .flag, pBuf := copyLoop r.sCom2RxBuf f.i n f.pBuf, i := f.cnt })
  | 0, r, f, hpc, hi => by
    have hi' : f.i = f.cnt := hi
    exact ⟨1, by simp [next, stmt, hpc, copyLoop, hi']⟩
  | n + 1, r, f, hpc, hi => by
    refine Reaches.head ?_
    rw [next, stmt_copy_lt hpc (show f.i < f.cnt by omega)]
    exact reaches_copy n r _ hpc (by simp only; omega)

/-- **A call executed without interruption is `readCom2Data`.** -/
theorem reaches_readCom2Data (r : Rx) (pBuf : List UInt8) :
    ∃ f, Reaches next (r, enter pBuf) ((readCom2Data r pBuf).1, f) ∧ f.pc = .ret ∧
      (readCom2Data r pBuf).2 = (f.pBuf, f.cnt) := by
  by_cases hflag : r.sCom2ReadFlag = 1
  · set cnt := u8 (uartRecvBuf - r.channel6.cndtr) with hcnt
    by_cases hpos : 0 < cnt
    · set f : Frame := { pc := .copy, pBuf := pBuf, cnt := cnt, i := 0 } with hf
      have h1 : Reaches next (r, enter pBuf) (r.stop, f) :=
        ⟨4, by simp [next, stmt, enter, hflag, ← hcnt, hpos, hf]⟩
      have h2 := reaches_copy cnt r.stop f rfl (Nat.zero_add _)
      have hread : readCom2Data r pBuf =
          ((({ r.stop with sCom2ReadFlag := 0 } : Rx).setCndtr uartRecvBuf).start,
            copyLoop r.stop.sCom2RxBuf 0 cnt pBuf, cnt) := by
        simp only [readCom2Data, hflag, if_true, ← hcnt, hpos]
      rw [hread]
      exact ⟨_, (h1.trans h2).trans ⟨3, rfl⟩, rfl, rfl⟩
    · have hread : readCom2Data r pBuf = (r, pBuf, cnt) := by
        simp only [readCom2Data, hflag, if_true, ← hcnt, hpos, if_false]
      rw [hread]
      exact ⟨{ pc := .ret, pBuf := pBuf, cnt := cnt, i := 0 },
        ⟨3, by simp [next, stmt, enter, hflag, ← hcnt, hpos]⟩, rfl, rfl⟩
  · have hread : readCom2Data r pBuf = (r, pBuf, 0) := by
      simp only [readCom2Data, hflag, if_false]
    rw [hread]
    exact ⟨{ enter pBuf with pc := .ret }, ⟨1, by simp [next, stmt, enter, hflag]⟩, rfl, rfl⟩

/-! ### What a whole call does -/

/-- The copy loop puts `n` bytes of the buffer in place of those of the array, from `i` on. -/
theorem copyLoop_eq (buf : List UInt8) : ∀ (n i : ℕ) (pBuf : List UInt8), i + n ≤ buf.length →
    i + n ≤ pBuf.length →
    copyLoop buf i n pBuf = pBuf.take i ++ window buf i n ++ pBuf.drop (i + n)
  | 0, i, pBuf, _, _ => by simp [copyLoop]
  | n + 1, i, pBuf, hb, hp => by
    have hlt : i < pBuf.length := by omega
    rw [copyLoop, copyLoop_eq buf n (i + 1) _ (by omega) (by simp only [List.length_set]; omega),
      take_set_succ _ hlt, List.drop_set_of_lt (by omega), window_succ 0 n (by omega),
      show i + 1 + n = i + (n + 1) by omega]
    simp

/-- The channel is on and has taken every byte. -/
structure Receiving (r : Rx) : Prop where
  bufLen : r.sCom2RxBuf.length = uartRecvBuf
  le : r.channel6.cndtr ≤ uartRecvBuf
  en : r.channel6.en = true
  initial : r.channel6.initial = uartRecvBuf
  dr : r.dr = none

theorem Receiving.length_stored {r : Rx} (h : Receiving r) :
    r.stored.length = uartRecvBuf - r.channel6.cndtr := by
  rw [Rx.stored, List.length_take, h.bufLen]; omega

theorem receiving_init : Receiving Rx.init :=
  ⟨by simp [Rx.init], by simp [Rx.init], rfl, rfl, rfl⟩

/-- **A call between two bytes** returns what is stored, if the flag is up. -/
theorem readCom2Data_eq {r : Rx} {pBuf : List UInt8} (h : Receiving r)
    (hp : uartRecvBuf ≤ pBuf.length) :
    if r.sCom2ReadFlag = 1 ∧ r.stored ≠ [] then
      Receiving (readCom2Data r pBuf).1 ∧ (readCom2Data r pBuf).1.sCom2ReadFlag = 0 ∧
        (readCom2Data r pBuf).1.stored = [] ∧ (readCom2Data r pBuf).1.channel6.tc = r.channel6.tc ∧
        (readCom2Data r pBuf).2 = (r.stored ++ pBuf.drop r.stored.length, r.stored.length)
    else readCom2Data r pBuf = (r, pBuf, 0) := by
  have hrb : uartRecvBuf = 50 := rfl
  have hle := h.le
  have hlen := h.length_stored
  have hcnt : u8 (uartRecvBuf - r.channel6.cndtr) = r.stored.length := by
    rw [u8_of_lt (by omega), hlen]
  by_cases hflag : r.sCom2ReadFlag = 1
  · by_cases hst : r.stored = []
    · rw [if_neg (by simp [hst])]
      simp [readCom2Data, hflag, hcnt, hst]
    · rw [if_pos ⟨hflag, hst⟩]
      have hpos : 0 < r.stored.length := List.length_pos_iff.mpr hst
      set c : Channel := { r.channel6 with cndtr := uartRecvBuf, initial := uartRecvBuf } with hc
      set r' : Rx := { r with sCom2ReadFlag := 0, channel6 := c } with hr'
      have hread : readCom2Data r pBuf =
          (r', copyLoop r.sCom2RxBuf 0 r.stored.length pBuf, r.stored.length) := by
        simp only [readCom2Data, hflag, if_true, hcnt, hpos]
        simp [Rx.stop, Rx.setCndtr, Rx.start, Channel.disable, Channel.setCndtr, Channel.enable,
          h.dr, h.en, hr', hc]
      rw [hread]
      refine ⟨⟨h.bufLen, Nat.le_refl _, h.en, rfl, h.dr⟩, rfl, by simp [Rx.stored, hr', hc], rfl, ?_⟩
      rw [copyLoop_eq _ _ _ _ (by rw [h.bufLen]; omega) (by omega), window_zero_left,
        Nat.zero_add, List.take_zero, List.nil_append]
      rw [hlen, Rx.stored]
  · rw [if_neg (by simp [hflag])]
    simp only [readCom2Data, hflag, if_false]

/-- **A byte arrives** while the buffer has room. -/
theorem arrive_eq {r : Rx} (b : UInt8) (h : Receiving r) (hlt : r.stored.length < uartRecvBuf) :
    Receiving (r.arrive b) ∧ (r.arrive b).stored = r.stored ++ [b] ∧
      (r.arrive b).channel6 = r.channel6.beat ∧
      (r.arrive b).sCom2RxBuf = r.sCom2RxBuf.set r.stored.length b ∧
      (r.arrive b).sCom2ReadFlag = r.sCom2ReadFlag := by
  have hlen := h.length_stored
  have hle := h.le
  have hbuf := h.bufLen
  have hr : r.channel6.Ready := ⟨h.en, by omega⟩
  have heq : r.arrive b = r.take b := by rw [Rx.arrive, if_pos hr]
  have hnext : r.channel6.next = r.stored.length := by rw [Channel.next, h.initial, hlen]
  rw [heq]
  refine ⟨⟨by simp [Rx.take, hbuf], ?_, h.en, h.initial, rfl⟩, ?_, rfl, by rw [Rx.take, hnext], rfl⟩
  · simp only [Rx.take, Channel.beat_cndtr]; omega
  · rw [Rx.stored, Rx.take, Channel.beat_cndtr, hnext, hlen,
      show uartRecvBuf - (r.channel6.cndtr - 1) = uartRecvBuf - r.channel6.cndtr + 1 by omega,
      take_set_succ _ (by omega), Rx.stored]

end Stm32TcpServer.Uart.Com2Rx
