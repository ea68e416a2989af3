import Stm32TcpServer.Lib.Window
import Stm32TcpServer.Uart.Com2Tx

/-! # The bytes still to be sent

What one call of `SendCom2Data` has accepted is a *block*. `Queued bs t` says that the buffer holds
what is left to send of the blocks `bs`; before the first call the channel sends the zero bytes it
was started with (`Zeros`). The DMA changes nothing in `bs` (`beat_entry`). -/

namespace Stm32TcpServer.Uart.TxQueue

open Stm32TcpServer.Lib.Window
open Stm32TcpServer.Uart.Dma Stm32TcpServer.Uart.Com2Tx

/-! ### What the buffer holds -/

/-- How many of the initial zero bytes are sent in the end. -/
def lead (t : Tx) : ℕ := t.zeros.getD uartSendBuf

/-- The bytes still to be sent: the last `cndtr` of the `sCom2SendLen` bytes loaded. -/
def pending (t : Tx) : List UInt8 :=
  window t.sCom2TxDmaBuf (t.sCom2SendLen - t.channel7.cndtr) t.channel7.cndtr

/-- What holds of the transmit side at all times. -/
structure Ok (t : Tx) : Prop where
  bufLen : t.sCom2TxDmaBuf.length = uartSendBuf
  oob : t.oob = false
  tc : t.channel7.tc = false
  zeros : ∀ z, t.zeros = some z → z ≤ uartSendBuf ∧ z ≤ t.wire.length

/-- The channel is still sending the zero bytes it was started with. -/
structure Zeros (t : Tx) : Prop where
  flag : t.sCom2SendFlag = 0
  en : t.channel7.en = true
  pos : 0 < t.channel7.cndtr
  le : t.channel7.cndtr ≤ uartSendBuf
  initial : t.channel7.initial = uartSendBuf
  buf : t.sCom2TxDmaBuf = List.replicate uartSendBuf 0
  sendLen : t.sCom2SendLen = 0
  wire : t.wire = List.replicate (uartSendBuf - t.channel7.cndtr) 0
  zeros : t.zeros = none

/-- **The wire and the buffer hold the blocks `bs`.** -/
structure Queued (bs : List (List UInt8)) (t : Tx) : Prop where
  le : t.channel7.cndtr ≤ t.sCom2SendLen
  sendLen : t.sCom2SendLen ≤ uartSendBuf
  initial : 0 < t.channel7.cndtr →
    (if t.channel7.en then t.channel7.initial else t.channel7.cndtr) = t.sCom2SendLen
  wire : t.wire ++ pending t = List.replicate (lead t) 0 ++ bs.flatten
  /-- Before the first call stops the channel: all of the zero bytes have been sent. -/
  first : t.zeros = none → bs = [] ∧ t.channel7.cndtr = 0

/-- The transmit side as a call finds it. -/
def Entry (bs : List (List UInt8)) (t : Tx) : Prop :=
  Ok t ∧ (Zeros t ∧ bs = [] ∨ Queued bs t ∧ (t.sCom2SendFlag = 1 ∨ t.channel7.cndtr = 0))

/-- The transmit side between two calls: what is queued is being sent. -/
def Steady (bs : List (List UInt8)) (t : Tx) : Prop :=
  Entry bs t ∧ (t.channel7.en = true ∨ t.channel7.cndtr = 0)

theorem Ok.lead_le {t : Tx} (h : Ok t) : lead t ≤ uartSendBuf := by
  unfold lead
  cases hz : t.zeros with
  | none => exact Nat.le_refl _
  | some z => exact (h.zeros z hz).1

theorem Steady.entry {bs : List (List UInt8)} {t : Tx} (h : Steady bs t) : Entry bs t := h.1

/-- Between two calls the window of the channel is what is still to be sent. -/
theorem Steady.inWindow {bs : List (List UInt8)} {t : Tx} (h : Steady bs t) :
    t.wire ++ t.inWindow = List.replicate (lead t) 0 ++ bs.flatten := by
  obtain ⟨⟨hok, ⟨hz, rfl⟩ | ⟨hq, -⟩⟩, hen⟩ := h
  · have := hz.le
    rw [Tx.inWindow, hz.en, if_pos rfl, hz.buf, hz.wire, lead, hz.zeros, Channel.next, hz.initial]
    rw [List.drop_replicate, List.take_replicate, ← List.replicate_add]
    simp only [Option.getD_none, List.flatten_nil, List.append_nil]
    congr 1
    omega
  · rw [← hq.wire, pending, window, Tx.inWindow]
    rcases Nat.eq_zero_or_pos t.channel7.cndtr with h0 | hpos
    · simp [h0]
    · have hen' : t.channel7.en = true := hen.resolve_right (by omega)
      have := hq.initial hpos
      rw [if_pos hen'] at this
      rw [if_pos hen', Channel.next, this]

theorem steady_init : Steady [] Tx.init := by
  refine ⟨⟨⟨by simp [Tx.init], rfl, rfl, by simp [Tx.init]⟩, Or.inl ⟨?_, rfl⟩⟩, Or.inl rfl⟩
  constructor <;> simp [Tx.init]

/-! ### The DMA moves a byte -/

theorem beat_eq_some {t t' : Tx} (htc : t.channel7.tc = false) (h : t.beat = some t') :
    t.channel7.Ready ∧ t'.sCom2TxDmaBuf = t.sCom2TxDmaBuf ∧ t'.sCom2SendLen = t.sCom2SendLen ∧
      t'.wire = t.wire ++ [t.sCom2TxDmaBuf.getD t.channel7.next 0] ∧ t'.zeros = t.zeros ∧
      t'.calls = t.calls ∧ t'.oob = (t.oob || decide (uartSendBuf ≤ t.channel7.next)) ∧
      t'.channel7.tc = false ∧ t'.channel7.initial = t.channel7.initial ∧
      t'.channel7.cndtr = t.channel7.cndtr - 1 ∧
      (t.channel7.cndtr = 1 → t'.sCom2SendFlag = 0 ∧ t'.channel7.en = false) ∧
      (t.channel7.cndtr ≠ 1 → t'.sCom2SendFlag = t.sCom2SendFlag ∧ t'.channel7.en = true) := by
  unfold Tx.beat at h
  split_ifs at h with hr
  obtain rfl := Option.some.inj h
  have hen := hr.1
  by_cases h1 : t.channel7.cndtr = 1 <;>
    simp [Tx.dma1Channel7IrqHandler, Channel.beat, Channel.clearTc, Channel.disable, htc, h1, hr,
      hen]

theorem lead_eq {t t' : Tx} (h : t'.zeros = t.zeros) : lead t' = lead t := by
  unfold lead; rw [h]

theorem zeros_beat {t t' : Tx} {b : UInt8} (hok : Ok t) (hz : t'.zeros = t.zeros)
    (hw : t'.wire = t.wire ++ [b]) :
    ∀ z, t'.zeros = some z → z ≤ uartSendBuf ∧ z ≤ t'.wire.length := by
  intro z h
  obtain ⟨h1, h2⟩ := hok.zeros z (hz ▸ h)
  rw [hw, List.length_append]
  exact ⟨h1, by omega⟩

theorem beat_queued {bs : List (List UInt8)} {t t' : Tx} (hok : Ok t) (hq : Queued bs t)
    (h : t.beat = some t') : Ok t' ∧ Queued bs t' ∧
      (t'.channel7.en = true ∨ t'.channel7.cndtr = 0) ∧
      (t'.sCom2SendFlag = t.sCom2SendFlag ∨ t'.channel7.cndtr = 0) := by
  obtain ⟨⟨hen, hpos⟩, hbuf, hlen, hwire, hzeros, -, hoob, htc, hinit, hcn, h1, hn1⟩ :=
    beat_eq_some hok.tc h
  have hle := hq.le
  have hsl := hq.sendLen
  have hini : t.channel7.initial = t.sCom2SendLen := by
    have := hq.initial hpos
    rwa [if_pos hen] at this
  have hnext : t.channel7.next = t.sCom2SendLen - t.channel7.cndtr := by rw [Channel.next, hini]
  have hpend : pending t =
      t.sCom2TxDmaBuf.getD t.channel7.next 0 :: pending t' := by
    unfold pending
    rw [hbuf, hlen, hcn, hnext, show t.channel7.cndtr = t.channel7.cndtr - 1 + 1 by omega,
      window_succ 0 _ (by rw [hok.bufLen]; omega)]
    congr 2
    omega
  refine ⟨⟨by rw [hbuf, hok.bufLen], ?_, htc, zeros_beat hok hzeros hwire⟩,
    ⟨by omega, by omega, fun hp => ?_, ?_, fun hz => ?_⟩, ?_, ?_⟩
  · rw [hoob, hok.oob, hnext]
    simp; omega
  · rw [if_pos (hn1 (by omega)).2, hinit, hini, hlen]
  · rw [hwire, lead_eq hzeros, ← hq.wire, hpend]; simp
  · have := (hq.first (hzeros ▸ hz)).2
    omega
  · by_cases hc : t.channel7.cndtr = 1
    · right; omega
    · left; exact (hn1 hc).2
  · by_cases hc : t.channel7.cndtr = 1
    · right; omega
    · left; exact (hn1 hc).1

theorem beat_flagged {bs : List (List UInt8)} {t t' : Tx} (hok : Ok t) (hq : Queued bs t)
    (hfl : t.sCom2SendFlag = 1 ∨ t.channel7.cndtr = 0) (h : t.beat = some t') :
    Ok t' ∧ Queued bs t' ∧ (t'.sCom2SendFlag = 1 ∨ t'.channel7.cndtr = 0) := by
  obtain ⟨hok', hq', -, hfl'⟩ := beat_queued hok hq h
  have hpos := (beat_eq_some hok.tc h).1.2
  refine ⟨hok', hq', hfl'.imp_left fun h => ?_⟩
  rw [h]
  exact hfl.resolve_right (by omega)

theorem beat_zeros {t t' : Tx} (hok : Ok t) (hz : Zeros t) (h : t.beat = some t') :
    Ok t' ∧ (Zeros t' ∨ Queued [] t' ∧ t'.channel7.cndtr = 0) := by
  obtain ⟨-, hbuf, hlen, hwire, hzeros, -, hoob, htc, hinit, hcn, h1, hn1⟩ :=
    beat_eq_some hok.tc h
  have hle := hz.le
  have hpos := hz.pos
  have hbyte : t.sCom2TxDmaBuf.getD t.channel7.next 0 = 0 := by rw [hz.buf]; simp
  have hwire' : t'.wire = List.replicate (uartSendBuf - t'.channel7.cndtr) 0 := by
    rw [hwire, hbyte, hz.wire, hcn, ← List.replicate_succ']
    congr 1
    omega
  refine ⟨⟨by rw [hbuf, hok.bufLen], ?_, htc, zeros_beat hok hzeros hwire⟩, ?_⟩
  · rw [hoob, hok.oob, Channel.next, hz.initial]
    simp; omega
  by_cases hc : t.channel7.cndtr = 1
  · right
    have h0 : t'.channel7.cndtr = 0 := by omega
    refine ⟨⟨by omega, by rw [hlen, hz.sendLen]; omega, fun hp => by omega, ?_,
      fun _ => ⟨rfl, h0⟩⟩, h0⟩
    rw [hwire', pending, h0, lead, hzeros, hz.zeros]
    simp
  · left
    obtain ⟨hfl, hen⟩ := hn1 hc
    exact ⟨by rw [hfl, hz.flag], hen, by omega, by omega, by rw [hinit, hz.initial],
      by rw [hbuf, hz.buf], by rw [hlen, hz.sendLen], hwire', by rw [hzeros, hz.zeros]⟩

theorem beat_entry {bs : List (List UInt8)} {t t' : Tx} (he : Entry bs t) (h : t.beat = some t') :
    Steady bs t' := by
  obtain ⟨hok, ⟨hz, rfl⟩ | ⟨hq, hfl⟩⟩ := he
  · obtain ⟨hok', hz' | ⟨hq', h0⟩⟩ := beat_zeros hok hz h
    · exact ⟨⟨hok', Or.inl ⟨hz', rfl⟩⟩, Or.inl hz'.en⟩
    · exact ⟨⟨hok', Or.inr ⟨hq', Or.inr h0⟩⟩, Or.inr h0⟩
  · obtain ⟨hok', hq', hfl'⟩ := beat_flagged hok hq hfl h
    exact ⟨⟨hok', Or.inr ⟨hq', hfl'⟩⟩, (beat_queued hok hq h).2.2.1⟩

end Stm32TcpServer.Uart.TxQueue
