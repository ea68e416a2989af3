import Stm32TcpServer.Lib.Runs
import Stm32TcpServer.Uart.Com2Rx

/-! # The main loop and the UART (main.c)

Each iteration of the main loop polls `ReadUartData(UART_PORT_COM2, data)`; if it returns a count
the loop passes the text at `data` to `SendTcpDataToClient`. Bytes and idle interrupts come between
the iterations; the transfer-complete interrupt of channel 6 follows the byte that fills
`sCom2RxBuf`.

`Mailbox` is what the loop sees of the receive side: whether the flag is up, and the bytes stored.
As long as no byte comes to a full buffer the code behaves like it (`sim_run`). -/

namespace Stm32TcpServer.Uart.MainLoop

open Stm32TcpServer.Lib.Runs
open Stm32TcpServer.Uart.Dma Stm32TcpServer.Uart.Com2Rx

/-- A byte arrives, the line goes idle, or the main loop makes an iteration. -/
inductive Event
  | byte (b : UInt8)
  | idle
  | poll
deriving DecidableEq

/-! ### The code -/

/-- The size of `data`. -/
abbrev dataSize : ℕ := 500

/-- `strlen`: `none` if there is no NUL in the array, so that bytes behind it are read. -/
def strlen (s : List UInt8) : Option ℕ := s.findIdx? (· == 0)

/-- The bytes that `SendTcpDataToClient(data, strlen((char*)data))` passes to `tcp_write` while a
client is connected. -/
def offer (data : List UInt8) : Option (List UInt8) := (strlen data).map data.take

/-- **The main loop**: the receive side and the array `data`, with the bytes that the polls have
returned and those offered to `tcp_write` after them. -/
structure Loop where
  rx : Rx
  data : List UInt8
  reads : List (List UInt8)
  offered : List (Option (List UInt8))

/-- The state on entry of the main loop, whatever is in `data`. -/
def Loop.init (data : List UInt8) : Loop :=
  { rx := Rx.init, data := data, reads := [], offered := [] }

/-- An iteration of the main loop. -/
def iterate (l : Loop) : Loop :=
  let (rx, data, n) := readCom2Data l.rx l.data
  if n = 0 then { l with rx := rx, data := data }
  else
    { rx := rx, data := data, reads := l.reads ++ [data.take n],
      offered := l.offered ++ [offer data] }

/-- **One event.** -/
def exec (l : Loop) : Event → Loop
  | .byte b => { l with rx := (l.rx.arrive b).dma1Channel6IrqHandler }
  | .idle => { l with rx := l.rx.usart2IrqHandler }
  | .poll => iterate l

/-! ### The mailbox -/

/-- **What the main loop sees of the receive side**, with the bytes it has taken. -/
structure Mailbox where
  flag : Bool
  content : List UInt8
  reads : List (List UInt8)
deriving DecidableEq

namespace Mailbox

/-- The empty mailbox. -/
def init : Mailbox := { flag := false, content := [], reads := [] }

/-- The byte that fills the buffer raises the flag. -/
def byte (m : Mailbox) (b : UInt8) : Mailbox :=
  { m with
    content := m.content ++ [b]
    flag := m.flag || decide (m.content.length + 1 = uartRecvBuf) }

/-- The idle interrupt raises the flag. -/
def idle (m : Mailbox) : Mailbox := { m with flag := true }

/-- A poll that finds the flag up takes the content, and lowers the flag if there was any. -/
def poll (m : Mailbox) : Mailbox :=
  if m.flag = true ∧ m.content ≠ [] then
    { flag := false, content := [], reads := m.reads ++ [m.content] }
  else m

/-- One event; no byte comes to a full buffer. -/
def step (m : Mailbox) : Event → Option Mailbox
  | .byte b => if m.content.length < uartRecvBuf then some (m.byte b) else none
  | .idle => some m.idle
  | .poll => some m.poll

@[simp] theorem idle_flag (m : Mailbox) : m.idle.flag = true := rfl
@[simp] theorem idle_content (m : Mailbox) : m.idle.content = m.content := rfl
@[simp] theorem idle_reads (m : Mailbox) : m.idle.reads = m.reads := rfl
@[simp] theorem byte_content (m : Mailbox) (b : UInt8) : (m.byte b).content = m.content ++ [b] := rfl
@[simp] theorem byte_reads (m : Mailbox) (b : UInt8) : (m.byte b).reads = m.reads := rfl

theorem poll_of_nil {m : Mailbox} (h : m.content = []) : m.poll = m := by simp [poll, h]

theorem poll_of_flag {m : Mailbox} (h : m.flag = false) : m.poll = m := by simp [poll, h]

theorem poll_poll (m : Mailbox) : m.poll.poll = m.poll := by
  by_cases h : m.flag = true ∧ m.content ≠ []
  · have hp : m.poll = { flag := false, content := [], reads := m.reads ++ [m.content] } := by
      rw [poll, if_pos h]
    rw [hp]
    exact poll_of_nil rfl
  · have hp : m.poll = m := by rw [poll, if_neg h]
    rw [hp, hp]

end Mailbox

/-! ### The code behaves like the mailbox -/

/-- The main loop and the mailbox agree. -/
structure Sim (l : Loop) (m : Mailbox) : Prop where
  receiving : Receiving l.rx
  tc : l.rx.channel6.tc = false
  flag : l.rx.sCom2ReadFlag = 1 ↔ m.flag = true
  stored : l.rx.stored = m.content
  data : uartRecvBuf ≤ l.data.length
  reads : l.reads = m.reads

theorem sim_init {data : List UInt8} (h : uartRecvBuf ≤ data.length) :
    Sim (Loop.init data) Mailbox.init :=
  ⟨receiving_init, rfl, by simp [Loop.init, Rx.init, Mailbox.init],
    by simp [Loop.init, Rx.init, Rx.stored, Mailbox.init], h, rfl⟩

theorem arrive_irq {r : Rx} (b : UInt8) (h : Receiving r) (htc : r.channel6.tc = false)
    (hlt : r.stored.length < uartRecvBuf) :
    Receiving (r.arrive b).dma1Channel6IrqHandler ∧
      (r.arrive b).dma1Channel6IrqHandler.channel6.tc = false ∧
      (r.arrive b).dma1Channel6IrqHandler.stored = r.stored ++ [b] ∧
      (r.arrive b).dma1Channel6IrqHandler.sCom2ReadFlag =
        if r.stored.length + 1 = uartRecvBuf then 1 else r.sCom2ReadFlag := by
  obtain ⟨hrec, hst, hch, -, hfl⟩ := arrive_eq b h hlt
  have hlen := h.length_stored
  have hle := h.le
  have htc' : (r.arrive b).channel6.tc = decide (r.channel6.cndtr = 1) := by
    rw [hch, Channel.beat_tc, htc, Bool.false_or]
  by_cases h1 : r.channel6.cndtr = 1
  · have heq : (r.arrive b).dma1Channel6IrqHandler =
        { r.arrive b with sCom2ReadFlag := 1, channel6 := (r.arrive b).channel6.clearTc } := by
      rw [Rx.dma1Channel6IrqHandler, if_pos (by simp [htc', h1])]
    rw [heq]
    refine ⟨⟨hrec.bufLen, hrec.le, hrec.en, hrec.initial, hrec.dr⟩, rfl, hst, ?_⟩
    rw [if_pos (by omega)]
  · have heq : (r.arrive b).dma1Channel6IrqHandler = r.arrive b := by
      rw [Rx.dma1Channel6IrqHandler, if_neg (by simp [htc', h1])]
    rw [heq]
    refine ⟨hrec, by simp [htc', h1], hst, ?_⟩
    rw [if_neg (by omega), hfl]

theorem iterate_eq {l : Loop} {m : Mailbox} (h : Sim l m) :
    if m.flag = true ∧ m.content ≠ [] then
      Sim (iterate l) m.poll ∧ (iterate l).data = m.content ++ l.data.drop m.content.length ∧
        (iterate l).offered = l.offered ++ [offer (m.content ++ l.data.drop m.content.length)]
    else iterate l = l := by
  have hread := readCom2Data_eq h.receiving h.data
  simp only [h.stored, h.flag] at hread
  split_ifs at hread ⊢ with hm
  · obtain ⟨hrec, hfl, hst, htc, hret⟩ := hread
    have hne : m.content.length ≠ 0 := by simpa using hm.2
    have heq : iterate l =
        { rx := (readCom2Data l.rx l.data).1
          data := m.content ++ l.data.drop m.content.length
          reads := l.reads ++ [m.content]
          offered := l.offered ++ [offer (m.content ++ l.data.drop m.content.length)] } := by
      simp only [iterate, hret, hne, if_false]
      simp
    have hpoll : m.poll = { flag := false, content := [], reads := m.reads ++ [m.content] } := by
      rw [Mailbox.poll, if_pos hm]
    rw [heq, hpoll]
    refine ⟨⟨hrec, by rw [htc, h.tc], by simp [hfl], hst, ?_, by rw [h.reads]⟩, rfl, rfl⟩
    have hlen := h.receiving.length_stored
    have hd := h.data
    rw [h.stored] at hlen
    simp only [List.length_append, List.length_drop]
    omega
  · rw [iterate, hread]
    rfl

/-- **One event.** -/
theorem sim_step {l : Loop} {m m' : Mailbox} {e : Event} (h : Sim l m)
    (hs : m.step e = some m') : Sim (exec l e) m' := by
  cases e with
  | byte b =>
    obtain ⟨hlt, rfl⟩ := guard_eq_some hs
    rw [← h.stored] at hlt
    obtain ⟨hrec, htc, hst, hfl⟩ := arrive_irq b h.receiving h.tc hlt
    refine ⟨hrec, htc, ?_, by rw [exec, hst, h.stored]; rfl, h.data, h.reads⟩
    simp only [exec, hfl, Mailbox.byte, ← h.stored, Bool.or_eq_true, ← h.flag, decide_eq_true_eq]
    split_ifs with h50 <;> simp [h50]
  | idle =>
    obtain rfl := Option.some.inj hs
    refine ⟨?_, h.tc, by simp [exec, Rx.usart2IrqHandler], h.stored, h.data, h.reads⟩
    exact ⟨h.receiving.bufLen, h.receiving.le, h.receiving.en, h.receiving.initial, rfl⟩
  | poll =>
    obtain rfl := Option.some.inj hs
    have hit := iterate_eq h
    rw [exec]
    split_ifs at hit with hm
    · exact hit.1
    · rw [hit, Mailbox.poll, if_neg hm]
      exact h

/-- **The code behaves like the mailbox** along every run in which no byte comes to a full buffer. -/
theorem sim_run {es : List Event} {l : Loop} {m m' : Mailbox} (h : Sim l m)
    (hr : run Mailbox.step m es = some m') : Sim (es.foldl exec l) m' :=
  simulation exec Sim (fun _ _ _ _ h hs => sim_step h hs) h hr

end Stm32TcpServer.Uart.MainLoop
