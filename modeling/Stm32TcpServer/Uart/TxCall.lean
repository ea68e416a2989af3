import Stm32TcpServer.Uart.TxQueue

/-! # A call of `SendCom2Data`, statement by statement

`FrameInv bs t f` says for every statement `f.pc` of a call what the buffer, the variables and the
locals hold before it, with the blocks `bs` on the wire and in the buffer.

* `stmt_inv`: a statement keeps it; the call's own block joins `bs` when the call writes `CNDTR`
  (`added`).
* `beat_frameInv`: so does the DMA, which changes nothing in `bs`. -/

namespace Stm32TcpServer.Uart.TxCall

open Stm32TcpServer.Lib.Window
open Stm32TcpServer.Uart.Dma Stm32TcpServer.Uart.Com2Tx Stm32TcpServer.Uart.TxQueue

/-! ### The statements of a call -/

/-- The transmit side while a call keeps the channel stopped. -/
structure Held (t : Tx) : Prop extends Ok t where
  en : t.channel7.en = false
  stopped : t.zeros ≠ none

/-- A transfer stopped on its way. -/
structure Halted (bs : List (List UInt8)) (t : Tx) : Prop extends Held t where
  le : t.channel7.cndtr ≤ t.sCom2SendLen
  sendLen : t.sCom2SendLen ≤ uartSendBuf
  wire : t.wire ++ pending t = List.replicate (lead t) 0 ++ bs.flatten

/-- The shift loop has moved `i` of the `tmp` bytes still to be sent to the front. -/
structure Shifting (bs : List (List UInt8)) (t : Tx) (i tmp cnt : ℕ) : Prop extends Held t where
  le : i ≤ tmp
  bound : cnt + tmp ≤ uartSendBuf
  wire : t.wire ++ (t.sCom2TxDmaBuf.take i ++ window t.sCom2TxDmaBuf (i + cnt) (tmp - i)) =
    List.replicate (lead t) 0 ++ bs.flatten

/-- The bytes still to be sent are the first `base` of the buffer. -/
structure Based (bs : List (List UInt8)) (t : Tx) (base : ℕ) : Prop extends Held t where
  le : base ≤ uartSendBuf
  wire : t.wire ++ t.sCom2TxDmaBuf.take base = List.replicate (lead t) 0 ++ bs.flatten

/-- The copy loop has put `i` of the `len` bytes that the call accepts behind them. -/
structure Filling (bs : List (List UInt8)) (t : Tx) (pBuf : List UInt8) (len0 len base i : ℕ) :
    Prop extends Based bs t base where
  clamped : len = min len0 (uartSendBuf - base)
  i_le : i ≤ len
  copied : window t.sCom2TxDmaBuf base i = pBuf.take i

/-- **What holds before each statement of a call**, with the blocks `bs` on the wire and in the
buffer. -/
def FrameInv (bs : List (List UInt8)) (t : Tx) (f : Frame) : Prop :=
  f.len0 < 256 ∧ f.len0 ≤ f.pBuf.length ∧
  match f.pc with
  | .test => Entry bs t ∧ f.len = f.len0
  | .busyStop => Ok t ∧ Queued bs t ∧ (t.sCom2SendFlag = 1 ∨ t.channel7.cndtr = 0) ∧
      f.len = f.len0
  | .busyTmp => Halted bs t ∧ f.len = f.len0
  | .busyCnt => Halted bs t ∧ f.len = f.len0 ∧ f.tmp = t.channel7.cndtr
  | .busyShift => Shifting bs t f.i f.tmp f.cnt ∧ f.len = f.len0
  | .busyClamp => Based bs t f.tmp ∧ f.len = f.len0
  | .busyCopy => Filling bs t f.pBuf f.len0 f.len f.tmp f.i
  | .busyRet => Filling bs t f.pBuf f.len0 f.len f.tmp f.len
  | .busyLen => Filling bs t f.pBuf f.len0 f.len f.tmp f.len ∧ f.cnt = f.len
  | .busyCndtr => Filling bs t f.pBuf f.len0 f.len f.tmp f.len ∧ f.cnt = f.len ∧
      t.sCom2SendLen = f.len + f.tmp
  | .idleStop => Ok t ∧ (Zeros t ∧ bs = [] ∨ Queued bs t ∧ t.channel7.cndtr = 0) ∧ f.len = f.len0
  | .idleClamp => Based bs t 0 ∧ f.len = f.len0
  | .idleCopy => Filling bs t f.pBuf f.len0 f.len 0 f.i
  | .idleRet => Filling bs t f.pBuf f.len0 f.len 0 f.len
  | .idleLen => Filling bs t f.pBuf f.len0 f.len 0 f.len ∧ f.cnt = f.len
  | .idleCndtr => Filling bs t f.pBuf f.len0 f.len 0 f.len ∧ f.cnt = f.len ∧ t.sCom2SendLen = f.len
  | .busyFlag | .idleFlag => Ok t ∧ Queued bs t
  | .busyStart | .idleStart => Ok t ∧ Queued bs t ∧ (t.sCom2SendFlag = 1 ∨ t.channel7.cndtr = 0)
  | .ret => Steady bs t

theorem FrameInv.ok {bs : List (List UInt8)} {t : Tx} {f : Frame} (h : FrameInv bs t f) : Ok t := by
  obtain ⟨-, -, hinv⟩ := h
  cases hpc : f.pc <;> simp only [hpc] at hinv
  case busyCopy | busyRet | idleCopy | idleRet => exact hinv.toOk
  case test | ret => exact hinv.1.1
  case busyStop | idleStop | busyFlag | idleFlag | busyStart | idleStart => exact hinv.1
  all_goals exact hinv.1.toOk

/-- The block of a call joins the others when the call writes `CNDTR`. -/
def added (f : Frame) : List (List UInt8) :=
  match f.pc with
  | .busyCndtr | .idleCndtr => [f.pBuf.take f.cnt]
  | _ => []

/-- The block of the call in progress, from the moment it has written `CNDTR`. -/
def loaded (f : Frame) : List (List UInt8) :=
  match f.pc with
  | .busyFlag | .busyStart | .idleFlag | .idleStart | .ret => [f.pBuf.take f.cnt]
  | _ => []

theorem loaded_stmt {t : Tx} {f : Frame} (hret : f.pc ≠ .ret) :
    loaded (stmt t f).2 = loaded f ++ added f := by
  cases hpc : f.pc <;> simp only [loaded, added, stmt, hpc]
  case ret => exact absurd hpc hret
  all_goals first | rfl | (split_ifs <;> simp)

theorem stop_zeros (t : Tx) : t.stop.zeros ≠ none := by simp [Tx.stop]

/-- Once a call has stopped the channel no further zero bytes follow. -/
theorem stop_held {t : Tx} (hok : Ok t) (hw : t.wire.length ≤ uartSendBuf ∨ t.zeros ≠ none) :
    Held t.stop := by
  refine ⟨⟨hok.bufLen, hok.oob, hok.tc, fun z hz => ?_⟩, rfl, stop_zeros t⟩
  cases hz' : t.zeros with
  | none =>
    have hw' := hw.resolve_right (by simp [hz'])
    obtain rfl : t.wire.length = z := by simpa [Tx.stop, hz'] using hz
    exact ⟨hw', Nat.le_refl _⟩
  | some z' =>
    obtain rfl : z' = z := by simpa [Tx.stop, hz'] using hz
    exact hok.zeros z' hz'

theorem stop_queued {bs : List (List UInt8)} {t : Tx} (hok : Ok t) (hq : Queued bs t) :
    Halted bs t.stop := by
  have hlead : lead t.stop = lead t ∧ (t.wire.length ≤ uartSendBuf ∨ t.zeros ≠ none) := by
    cases hz : t.zeros with
    | none =>
      obtain ⟨rfl, h0⟩ := hq.first hz
      have hw := hq.wire
      simp only [pending, h0, window_zero, List.append_nil, List.flatten_nil] at hw
      rw [hw]
      simp [lead, Tx.stop, hz, hw]
    | some z => simp [lead, Tx.stop, hz]
  refine ⟨stop_held hok hlead.2, hq.le, hq.sendLen, ?_⟩
  rw [hlead.1]
  exact hq.wire

/-- The idle branch finds nothing still to be sent, or only zero bytes. -/
theorem stop_idle {bs : List (List UInt8)} {t : Tx} (hok : Ok t)
    (h : Zeros t ∧ bs = [] ∨ Queued bs t ∧ t.channel7.cndtr = 0) : Based bs t.stop 0 := by
  rcases h with ⟨hz, rfl⟩ | ⟨hq, h0⟩
  · have hw := congrArg List.length hz.wire
    have hle : t.wire.length ≤ uartSendBuf := by rw [List.length_replicate] at hw; omega
    refine ⟨stop_held hok (Or.inl hle), Nat.zero_le _, ?_⟩
    have hlead : lead t.stop = t.wire.length := by simp [lead, Tx.stop, hz.zeros]
    rw [hlead, hw, List.length_replicate]
    simp [Tx.stop, hz.wire]
  · have h := stop_queued hok hq
    refine ⟨h.toHeld, Nat.zero_le _, ?_⟩
    have hp : pending t.stop = [] := by rw [pending]; simp [Tx.stop, h0]
    rw [← h.wire, hp, List.take_zero]

theorem shifting_start {bs : List (List UInt8)} {t : Tx} (h : Halted bs t) :
    Shifting bs t 0 t.channel7.cndtr (u8Sub t.sCom2SendLen t.channel7.cndtr) := by
  have hle := h.le
  have hsl := h.sendLen
  rw [u8Sub_of_le (Nat.lt_of_le_of_lt hsl (by decide)) hle]
  refine ⟨h.toHeld, Nat.zero_le _, by omega, ?_⟩
  rw [List.take_zero, List.nil_append, Nat.zero_add, Nat.sub_zero]
  exact h.wire

theorem shifting_step {bs : List (List UInt8)} {t : Tx} {i tmp cnt : ℕ}
    (h : Shifting bs t i tmp cnt) (hi : i < tmp) : Shifting bs (t.shift i cnt) (i + 1) tmp cnt := by
  have hb := h.bound
  have hl := h.bufLen
  refine ⟨⟨⟨?_, ?_, h.tc, h.zeros⟩, h.en, h.stopped⟩, hi, hb, ?_⟩
  · simp [Tx.shift, hl]
  · simp [Tx.shift, h.oob]; omega
  · have hw := h.wire
    rw [show tmp - i = tmp - (i + 1) + 1 by omega, window_succ 0 _ (by rw [hl]; omega)] at hw
    simp only [Tx.shift]
    rw [take_set_succ _ (by rw [hl]; omega), window_set_of_lt _ _ _ (by omega),
      show i + 1 + cnt = i + cnt + 1 by omega, List.append_assoc]
    exact hw

theorem shifting_end {bs : List (List UInt8)} {t : Tx} {i tmp cnt : ℕ}
    (h : Shifting bs t i tmp cnt) (hi : ¬ i < tmp) : Based bs t tmp := by
  have hb := h.bound
  have hi' : i = tmp := Nat.le_antisymm h.le (Nat.not_lt.mp hi)
  refine ⟨h.toHeld, by omega, ?_⟩
  have hw := h.wire
  rwa [hi', Nat.sub_self, window_zero, List.append_nil] at hw

theorem filling_start {bs : List (List UInt8)} {t : Tx} {len0 base len : ℕ} (pBuf : List UInt8)
    (h : Based bs t base) (hlen : len = min len0 (uartSendBuf - base)) :
    Filling bs t pBuf len0 len base 0 :=
  ⟨h, hlen, Nat.zero_le _, by simp⟩

theorem filling_step {bs : List (List UInt8)} {t : Tx} {pBuf : List UInt8} {len0 len base i k : ℕ}
    (hbuf : len0 ≤ pBuf.length) (h : Filling bs t pBuf len0 len base i) (hi : i < len)
    (hk : k = base + i) :
    Filling bs (t.store k (pBuf.getD i 0)) pBuf len0 len base (i + 1) := by
  subst hk
  have hb := h.le
  have hc := h.clamped
  have hl := h.bufLen
  have hlt : base + i < t.sCom2TxDmaBuf.length := by rw [hl]; omega
  refine ⟨⟨⟨⟨?_, ?_, h.tc, h.zeros⟩, h.en, h.stopped⟩, hb, ?_⟩, hc, hi, ?_⟩
  · simp [Tx.store, hl]
  · simp [Tx.store, h.oob]; omega
  · have hw := h.wire
    rw [← window_zero_left] at hw
    simp only [Tx.store]
    rw [← window_zero_left, window_set_of_le _ _ (by omega)]
    exact hw
  · simp only [Tx.store]
    rw [window_set_last _ hlt, h.copied, List.getD_eq_getElem _ _ (by omega),
      List.take_append_getElem]

theorem filling_sendLen {bs : List (List UInt8)} {t : Tx} {pBuf : List UInt8}
    {len0 len base i : ℕ} (h : Filling bs t pBuf len0 len base i) (n : ℕ) :
    Filling bs { t with sCom2SendLen := n } pBuf len0 len base i :=
  ⟨⟨⟨⟨h.bufLen, h.oob, h.tc, h.zeros⟩, h.en, h.stopped⟩, h.le, h.wire⟩, h.clamped, h.i_le, h.copied⟩

theorem load {bs : List (List UInt8)} {t : Tx} {pBuf : List UInt8} {len0 len base : ℕ}
    (h : Filling bs t pBuf len0 len base len) (hlen : t.sCom2SendLen = len + base) :
    Ok (t.setCndtr (len + base)) ∧ Queued (bs ++ [pBuf.take len]) (t.setCndtr (len + base)) := by
  have hb := h.le
  have hc := h.clamped
  have hcn : (t.channel7.setCndtr (len + base)).cndtr = len + base := Channel.setCndtr_cndtr h.en _
  refine ⟨⟨h.bufLen, h.oob, by simp [Tx.setCndtr, h.tc], h.zeros⟩, ?_, ?_, fun _ => ?_, ?_,
    fun hz => absurd hz h.stopped⟩
  · simp [Tx.setCndtr, hcn, hlen]
  · simp only [Tx.setCndtr, hlen]; omega
  · simp [Tx.setCndtr, hcn, hlen, h.en]
  · have hp : pending (t.setCndtr (len + base)) = t.sCom2TxDmaBuf.take base ++ pBuf.take len := by
      simp only [pending, Tx.setCndtr, hcn, hlen, Nat.sub_self]
      rw [Nat.add_comm, window_add, window_zero_left, Nat.zero_add, h.copied]
    rw [hp, List.flatten_append, ← List.append_assoc, ← List.append_assoc]
    congr 1
    · exact h.wire
    · simp

/-- The flag is set, or no byte is queued: the channel may be switched on. -/
theorem start_steady {bs : List (List UInt8)} {t : Tx} (hok : Ok t) (hq : Queued bs t)
    (hfl : t.sCom2SendFlag = 1 ∨ t.channel7.cndtr = 0) : Steady bs t.start := by
  have hok' : Ok t.start := ⟨hok.bufLen, hok.oob, by simp [Tx.start, hok.tc], hok.zeros⟩
  have hcn : t.start.channel7.cndtr = t.channel7.cndtr := Channel.enable_cndtr _
  have hen : t.start.channel7.en = true := Channel.enable_en _
  have hp : pending t.start = pending t := by simp [pending, Tx.start]
  refine ⟨⟨hok', Or.inr ⟨⟨by rw [hcn]; exact hq.le, hq.sendLen, fun h => ?_, ?_, ?_⟩, ?_⟩⟩,
    Or.inl hen⟩
  · rw [hcn] at h
    rw [if_pos hen]
    exact (Channel.enable_initial _).trans (hq.initial h)
  · rw [hp]; exact hq.wire
  · rw [hcn]; exact hq.first
  · rw [hcn]; exact hfl

/-- **One statement of a call.** -/
theorem stmt_inv {bs : List (List UInt8)} {t : Tx} {f : Frame} (h : FrameInv bs t f)
    (hret : f.pc ≠ .ret) : FrameInv (bs ++ added f) (stmt t f).1 (stmt t f).2 := by
  obtain ⟨hlt, hbuf, hinv⟩ := h
  have hsb : uartSendBuf = 100 := rfl
  cases hpc : f.pc <;>
    simp only [hpc] at hinv <;>
    simp only [FrameInv, added, stmt, hpc, List.append_nil]
  case test =>
    obtain ⟨⟨hok, hq⟩, hlen⟩ := hinv
    by_cases hfl : t.sCom2SendFlag = 1
    · rw [if_pos hfl]
      rcases hq with ⟨hz, -⟩ | ⟨hq, -⟩
      · rw [hz.flag] at hfl; omega
      · exact ⟨hlt, hbuf, hok, hq, Or.inl hfl, hlen⟩
    · rw [if_neg hfl]
      refine ⟨hlt, hbuf, hok, hq.imp_right fun hq => ⟨hq.1, hq.2.resolve_left hfl⟩, hlen⟩
  case busyStop => exact ⟨hlt, hbuf, stop_queued hinv.1 hinv.2.1, hinv.2.2.2⟩
  case busyTmp =>
    have hle := hinv.1.le
    have hsl := hinv.1.sendLen
    exact ⟨hlt, hbuf, hinv.1, hinv.2, u8_of_lt (by omega)⟩
  case busyCnt =>
    obtain ⟨hh, hlen, htmp⟩ := hinv
    rw [htmp]
    exact ⟨hlt, hbuf, shifting_start hh, hlen⟩
  case busyShift =>
    by_cases hi : f.i < f.tmp
    · simp only [if_pos hi]
      exact ⟨hlt, hbuf, shifting_step hinv.1 hi, hinv.2⟩
    · simp only [if_neg hi]
      exact ⟨hlt, hbuf, shifting_end hinv.1 hi, hinv.2⟩
  case busyClamp =>
    refine ⟨hlt, hbuf, filling_start _ hinv.1 ?_⟩
    have hle := hinv.1.le
    rw [hinv.2]
    split_ifs with hc
    · rw [u8Sub_of_le (by omega) hle]; omega
    · omega
  case busyCopy =>
    by_cases hi : f.i < f.len
    · simp only [if_pos hi]
      exact ⟨hlt, hbuf, filling_step hbuf hinv hi (Nat.add_comm _ _)⟩
    · have hi' : f.i = f.len := Nat.le_antisymm hinv.i_le (Nat.not_lt.mp hi)
      rw [hi'] at hinv
      simp only [if_neg hi]
      exact ⟨hlt, hbuf, hinv⟩
  case busyRet => exact ⟨hlt, hbuf, hinv, trivial⟩
  case busyLen =>
    have hle := hinv.1.le
    have hc := hinv.1.clamped
    exact ⟨hlt, hbuf, filling_sendLen hinv.1 _, hinv.2, u8_of_lt (by omega)⟩
  case busyCndtr =>
    obtain ⟨hf, hcnt, hsl⟩ := hinv
    rw [hcnt]
    exact ⟨hlt, hbuf, load hf hsl⟩
  case busyFlag | idleFlag =>
    obtain ⟨hok, hq⟩ := hinv
    exact ⟨hlt, hbuf, ⟨hok.bufLen, hok.oob, hok.tc, hok.zeros⟩,
      ⟨hq.le, hq.sendLen, hq.initial, hq.wire, hq.first⟩, Or.inl trivial⟩
  case busyStart | idleStart => exact ⟨hlt, hbuf, start_steady hinv.1 hinv.2.1 hinv.2.2⟩
  case idleStop => exact ⟨hlt, hbuf, stop_idle hinv.1 hinv.2.1, hinv.2.2⟩
  case idleClamp =>
    refine ⟨hlt, hbuf, filling_start _ hinv.1 ?_⟩
    rw [hinv.2]
    split_ifs <;> omega
  case idleCopy =>
    by_cases hi : f.i < f.len
    · simp only [if_pos hi]
      exact ⟨hlt, hbuf, filling_step hbuf hinv hi (Nat.zero_add _).symm⟩
    · have hi' : f.i = f.len := Nat.le_antisymm hinv.i_le (Nat.not_lt.mp hi)
      rw [hi'] at hinv
      simp only [if_neg hi]
      exact ⟨hlt, hbuf, hinv⟩
  case idleRet => exact ⟨hlt, hbuf, hinv, trivial⟩
  case idleLen => exact ⟨hlt, hbuf, filling_sendLen hinv.1 _, hinv.2, trivial⟩
  case idleCndtr =>
    obtain ⟨hf, hcnt, hsl⟩ := hinv
    rw [hcnt]
    exact ⟨hlt, hbuf, load hf hsl⟩
  case ret => exact absurd hpc hret

theorem beat_held {t : Tx} (h : Held t) : t.beat = none := by
  simp [Tx.beat, Channel.Ready, h.en]

/-- **The DMA moves a byte during a call.** -/
theorem beat_frameInv {bs : List (List UInt8)} {t t' : Tx} {f : Frame} (h : FrameInv bs t f)
    (hb : t.beat = some t') : FrameInv bs t' f := by
  obtain ⟨hlt, hbuf, hinv⟩ := h
  refine ⟨hlt, hbuf, ?_⟩
  have held (hh : Held t) : False := by rw [beat_held hh] at hb; exact nomatch hb
  cases hpc : f.pc <;> simp only [hpc] at hinv ⊢
  case test => exact ⟨(beat_entry hinv.1 hb).entry, hinv.2⟩
  case busyStop =>
    obtain ⟨hok, hq, hfl, hlen⟩ := hinv
    obtain ⟨hok', hq', hfl'⟩ := beat_flagged hok hq hfl hb
    exact ⟨hok', hq', hfl', hlen⟩
  case idleStop =>
    obtain ⟨hok, ⟨hz, rfl⟩ | ⟨hq, h0⟩, hlen⟩ := hinv
    · obtain ⟨hok', hz'⟩ := beat_zeros hok hz hb
      exact ⟨hok', hz'.imp_left fun hz' => ⟨hz', rfl⟩, hlen⟩
    · have hpos := (beat_eq_some hok.tc hb).1.2
      omega
  case busyFlag | idleFlag =>
    obtain ⟨hok', hq', -⟩ := beat_queued hinv.1 hinv.2 hb
    exact ⟨hok', hq'⟩
  case busyStart | idleStart =>
    obtain ⟨hok, hq, hfl⟩ := hinv
    exact beat_flagged hok hq hfl hb
  case ret => exact beat_entry hinv.entry hb
  case busyTmp | busyCnt => exact absurd hinv.1.toHeld held
  case busyShift => exact absurd hinv.1.toHeld held
  case busyClamp | idleClamp => exact absurd hinv.1.toHeld held
  case busyCopy | busyRet | idleCopy | idleRet => exact absurd hinv.toHeld held
  case busyLen | busyCndtr | idleLen | idleCndtr => exact absurd hinv.1.toHeld held

end Stm32TcpServer.Uart.TxCall
