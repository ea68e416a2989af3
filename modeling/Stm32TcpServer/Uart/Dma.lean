import Mathlib.Data.List.Basic

/-! # One channel of the DMA controller, and `u8` arithmetic

Channels 6 (USART2 receive) and 7 (USART2 transmit) run in normal mode over a byte array: `cndtr` is
the number of transfers left, and the next transfer moves element `initial - cndtr`, where `initial`
is the counter the channel was switched on with (switching on goes back to the base address). The
counter can only be written while the channel is off (the note at `DMA_SetCurrDataCounter`). When
the counter reaches `0` the transfer-complete flag is raised. -/

namespace Stm32TcpServer.Uart.Dma

/-- The value of an expression stored in a `u8`. -/
def u8 (n : ℕ) : ℕ := n % 256

/-- The difference of two `u8` values, stored in a `u8`. -/
def u8Sub (a b : ℕ) : ℕ := (a + 256 - b) % 256

theorem u8_of_lt {n : ℕ} (h : n < 256) : u8 n = n := Nat.mod_eq_of_lt h

theorem u8Sub_of_le {a b : ℕ} (ha : a < 256) (hb : b ≤ a) : u8Sub a b = a - b := by
  unfold u8Sub; omega

/-- **A DMA channel.** -/
structure Channel where
  en : Bool
  cndtr : ℕ
  /-- The counter at the moment the channel was switched on. -/
  initial : ℕ
  tc : Bool
deriving DecidableEq

namespace Channel

/-- `DMA_Cmd(channel, DISABLE)`. -/
def disable (c : Channel) : Channel := { c with en := false }

/-- `DMA_Cmd(channel, ENABLE)`: a channel that is already on just goes on. -/
def enable (c : Channel) : Channel := if c.en then c else { c with en := true, initial := c.cndtr }

/-- `channel->CNDTR = n`: without effect while the channel is on. -/
def setCndtr (c : Channel) (n : ℕ) : Channel := if c.en then c else { c with cndtr := n }

/-- `DMA_ClearFlag`. -/
def clearTc (c : Channel) : Channel := { c with tc := false }

/-- A transfer is possible. -/
def Ready (c : Channel) : Prop := c.en = true ∧ 0 < c.cndtr

instance (c : Channel) : Decidable c.Ready := by unfold Ready; infer_instance

/-- The element the next transfer moves. -/
def next (c : Channel) : ℕ := c.initial - c.cndtr

/-- **One transfer.** -/
def beat (c : Channel) : Channel :=
  { c with cndtr := c.cndtr - 1, tc := c.tc || decide (c.cndtr = 1) }

@[simp] theorem disable_cndtr (c : Channel) : c.disable.cndtr = c.cndtr := rfl

@[simp] theorem enable_en (c : Channel) : c.enable.en = true := by
  unfold enable; split_ifs with h <;> simp [h]

@[simp] theorem enable_cndtr (c : Channel) : c.enable.cndtr = c.cndtr := by
  unfold enable; split_ifs <;> rfl

@[simp] theorem enable_tc (c : Channel) : c.enable.tc = c.tc := by
  unfold enable; split_ifs <;> rfl

theorem enable_initial (c : Channel) : c.enable.initial = if c.en then c.initial else c.cndtr := by
  unfold enable; split_ifs <;> rfl

@[simp] theorem setCndtr_en (c : Channel) (n : ℕ) : (c.setCndtr n).en = c.en := by
  unfold setCndtr; split_ifs <;> rfl

@[simp] theorem setCndtr_tc (c : Channel) (n : ℕ) : (c.setCndtr n).tc = c.tc := by
  unfold setCndtr; split_ifs <;> rfl

theorem setCndtr_cndtr {c : Channel} (h : c.en = false) (n : ℕ) : (c.setCndtr n).cndtr = n := by
  unfold setCndtr; simp [h]

@[simp] theorem beat_cndtr (c : Channel) : c.beat.cndtr = c.cndtr - 1 := rfl
theorem beat_tc (c : Channel) : c.beat.tc = (c.tc || decide (c.cndtr = 1)) := rfl

end Channel

end Stm32TcpServer.Uart.Dma
