import Mathlib.Data.BitVec
import Mathlib.Data.Int.Order.Basic

/-! # Serial numbers

The positions of an unbounded sequence are numbered modulo `2 ^ w`, from a number `s` for the
position 0 on: `seq s x` is the number of the position `x`. Two numbers are compared by the sign of
their difference, which is right as long as the positions are less than `2 ^ (w - 1)` apart.

* `seq_sub`, `seq_add`: differences and sums of numbers are those of positions.
* `lt_seq`, `leq_seq`, `between_seq`: what the comparisons say about near positions.
* `exists_seq`: every number is that of a position near a given one. -/

namespace Stm32TcpServer.Lib.SeqNo

variable {w : ℕ} {s a b : BitVec w} {x y z : ℤ}

/-- The number of the position `x`. -/
def seq (s : BitVec w) (x : ℤ) : BitVec w := s + BitVec.ofInt w x

/-- `a` comes before `b`: the sign of the difference. -/
def lt (a b : BitVec w) : Bool := (a - b).toInt < 0
/-- `a` comes before `b`, or they are the same. -/
def leq (a b : BitVec w) : Bool := (a - b).toInt ≤ 0
/-- `a` comes after `b`. -/
def gt (a b : BitVec w) : Bool := 0 < (a - b).toInt
/-- `a` comes after `b`, or they are the same. -/
def geq (a b : BitVec w) : Bool := 0 ≤ (a - b).toInt
/-- `b ≤ a ≤ c`. -/
def between (a b c : BitVec w) : Bool := geq a b && leq a c

@[simp] theorem seq_zero (s : BitVec w) : seq s 0 = s := by simp [seq]

theorem seq_add (s : BitVec w) (x y : ℤ) : seq s x + BitVec.ofInt w y = seq s (x + y) := by
  rw [seq, seq, BitVec.ofInt_add, BitVec.add_assoc]

theorem seq_add_nat (s : BitVec w) (x : ℤ) (n : ℕ) : seq s x + BitVec.ofNat w n = seq s (x + n) := by
  rw [← seq_add]
  simp

theorem seq_sub (s : BitVec w) (x y : ℤ) : seq s x - seq s y = BitVec.ofInt w (x - y) := by
  have h := seq_add s y (x - y)
  rw [add_sub_cancel] at h
  rw [← h, BitVec.add_comm, BitVec.add_sub_cancel]

theorem seq_sub_one (s : BitVec w) (x : ℤ) : seq s x - 1 = seq s (x - 1) := by
  have h := seq_add s (x - 1) 1
  rw [sub_add_cancel] at h
  rw [← h]
  simp

theorem toNat_seq_sub (hlo : 0 ≤ x - y) (hhi : x - y < 2 ^ w) :
    ((seq s x - seq s y).toNat : ℤ) = x - y := by
  have hpow : ((2 ^ w : ℕ) : ℤ) = 2 ^ w := by
    push_cast
    rfl
  rw [seq_sub, BitVec.toNat_ofInt, hpow, Int.emod_eq_of_lt hlo hhi, Int.toNat_of_nonneg hlo]

/-- Every number is that of a position near `y`. -/
theorem exists_seq (s a : BitVec w) (y : ℤ) :
    ∃ x, a = seq s x ∧ -2 ^ (w - 1) ≤ x - y ∧ x - y < 2 ^ (w - 1) := by
  refine ⟨y + (a - seq s y).toInt, ?_, ?_, ?_⟩
  · rw [← seq_add, BitVec.ofInt_toInt, BitVec.add_comm, BitVec.sub_add_cancel]
  · rw [add_sub_cancel_left]
    exact BitVec.le_toInt _
  · rw [add_sub_cancel_left]
    exact BitVec.toInt_lt

section
variable (hw : 0 < w)
include hw

theorem toInt_seq_sub (hlo : -2 ^ (w - 1) ≤ x - y) (hhi : x - y < 2 ^ (w - 1)) :
    (seq s x - seq s y).toInt = x - y := by
  rw [seq_sub]
  exact BitVec.toInt_ofInt_eq_self hw hlo hhi

theorem lt_seq (hlo : -2 ^ (w - 1) ≤ x - y) (hhi : x - y < 2 ^ (w - 1)) :
    lt (seq s x) (seq s y) = true ↔ x < y := by
  rw [lt, toInt_seq_sub hw hlo hhi, decide_eq_true_iff]
  omega

theorem leq_seq (hlo : -2 ^ (w - 1) ≤ x - y) (hhi : x - y < 2 ^ (w - 1)) :
    leq (seq s x) (seq s y) = true ↔ x ≤ y := by
  rw [leq, toInt_seq_sub hw hlo hhi, decide_eq_true_iff]
  omega

theorem gt_seq (hlo : -2 ^ (w - 1) ≤ x - y) (hhi : x - y < 2 ^ (w - 1)) :
    gt (seq s x) (seq s y) = true ↔ y < x := by
  rw [gt, toInt_seq_sub hw hlo hhi, decide_eq_true_iff]
  omega

theorem geq_seq (hlo : -2 ^ (w - 1) ≤ x - y) (hhi : x - y < 2 ^ (w - 1)) :
    geq (seq s x) (seq s y) = true ↔ y ≤ x := by
  rw [geq, toInt_seq_sub hw hlo hhi, decide_eq_true_iff]
  omega

theorem between_seq (hlo : -2 ^ (w - 1) ≤ x - y) (hhi : x - y < 2 ^ (w - 1))
    (hlo' : -2 ^ (w - 1) ≤ x - z) (hhi' : x - z < 2 ^ (w - 1)) :
    between (seq s x) (seq s y) (seq s z) = true ↔ y ≤ x ∧ x ≤ z := by
  rw [between, Bool.and_eq_true, geq_seq hw hlo hhi, leq_seq hw hlo' hhi']

theorem seq_inj (hlo : -2 ^ (w - 1) ≤ x - y) (hhi : x - y < 2 ^ (w - 1)) :
    seq s x = seq s y ↔ x = y := by
  constructor
  · intro h
    have hsub := toInt_seq_sub (s := s) hw hlo hhi
    rw [h, BitVec.sub_self, BitVec.toInt_zero] at hsub
    omega
  · rintro rfl
    rfl

end

end Stm32TcpServer.Lib.SeqNo
