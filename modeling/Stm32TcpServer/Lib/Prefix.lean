import Mathlib.Data.List.Basic

/-! # Prefixes of words

Two words of `w` bits agree from the bit `j` on if they are the same without their `j` low bits. A
mask whose bits are those from `j` on decides just that (`PrefixMask.and_eq_iff`), and what agrees
with a word from a bit on is an interval (`SamePrefix.between`). -/

namespace Stm32TcpServer.Lib.Prefix

variable {w j : ℕ} {x y z m : BitVec w}

/-- The words agree from the bit `j` on. -/
def SamePrefix (j : ℕ) (x y : BitVec w) : Prop := x >>> j = y >>> j

instance (j : ℕ) (x y : BitVec w) : Decidable (SamePrefix j x y) := by
  unfold SamePrefix; infer_instance

/-- **The bits of the mask** are those from `j` on. -/
def PrefixMask (j : ℕ) (m : BitVec w) : Prop := ∀ i < w, m.getLsbD i = decide (j ≤ i)

theorem samePrefix_iff : SamePrefix j x y ↔ ∀ i < w, j ≤ i → x.getLsbD i = y.getLsbD i := by
  constructor
  · intro h i hi hj
    have hbit := congrArg (fun v : BitVec w => v.getLsbD (i - j)) h
    simp only [BitVec.getLsbD_ushiftRight] at hbit
    rw [Nat.add_sub_cancel' hj] at hbit
    exact hbit
  · intro h
    apply BitVec.eq_of_getLsbD_eq
    intro i hi
    rw [BitVec.getLsbD_ushiftRight, BitVec.getLsbD_ushiftRight]
    by_cases hw : j + i < w
    · exact h _ hw (Nat.le_add_right j i)
    · rw [BitVec.getLsbD_of_ge _ _ (Nat.not_lt.mp hw), BitVec.getLsbD_of_ge _ _ (Nat.not_lt.mp hw)]

theorem SamePrefix.refl (j : ℕ) (x : BitVec w) : SamePrefix j x x := rfl

/-- What agrees with a word between two words that agree with it. -/
theorem SamePrefix.between (hx : SamePrefix j x m) (hz : SamePrefix j z m) (hxy : x ≤ y)
    (hyz : y ≤ z) : SamePrefix j y m := by
  apply BitVec.eq_of_toNat_eq
  have hx' := congrArg BitVec.toNat hx
  have hz' := congrArg BitVec.toNat hz
  simp only [BitVec.toNat_ushiftRight, Nat.shiftRight_eq_div_pow] at hx' hz' ⊢
  have h1 : x.toNat / 2 ^ j ≤ y.toNat / 2 ^ j := Nat.div_le_div_right hxy
  have h2 : y.toNat / 2 ^ j ≤ z.toNat / 2 ^ j := Nat.div_le_div_right hyz
  omega

theorem and_eq_and_iff :
    x &&& m = y &&& m ↔ ∀ i < w, m.getLsbD i = true → x.getLsbD i = y.getLsbD i := by
  constructor
  · intro h i _ hm
    have hbit := congrArg (fun v : BitVec w => v.getLsbD i) h
    simp only [BitVec.getLsbD_and, hm, Bool.and_true] at hbit
    exact hbit
  · intro h
    apply BitVec.eq_of_getLsbD_eq
    intro i hi
    rw [BitVec.getLsbD_and, BitVec.getLsbD_and]
    cases hm : m.getLsbD i with
    | false => rw [Bool.and_false, Bool.and_false]
    | true => rw [h i hi hm]

/-- **A prefix mask** compares prefixes. -/
theorem PrefixMask.and_eq_iff (hm : PrefixMask j m) : x &&& m = y &&& m ↔ SamePrefix j x y := by
  rw [and_eq_and_iff, samePrefix_iff]
  constructor
  · intro h i hi hj
    refine h i hi ?_
    rw [hm i hi]
    exact decide_eq_true hj
  · intro h i hi hmi
    rw [hm i hi] at hmi
    exact h i hi (of_decide_eq_true hmi)

end Stm32TcpServer.Lib.Prefix
