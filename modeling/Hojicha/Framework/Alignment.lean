import Mathlib.Tactic

/-! # Rounding addresses -/

namespace Hojicha.Framework

variable {w k : Nat}

theorem toNat_and_not_mask (a mask : BitVec w) (hmask : mask.toNat=2 ^ k - 1) :
    (a &&& ~~~mask).toNat=a.toNat / 2 ^ k * 2 ^ k := by
  apply Nat.eq_of_testBit_eq
  intro i
  have hlow : mask.getLsbD i=decide (i<k) := by
    rw [← BitVec.testBit_toNat,hmask,Nat.testBit_two_pow_sub_one]
  rw [Nat.testBit_mul_two_pow,Nat.testBit_div_two_pow,BitVec.testBit_toNat,BitVec.testBit_toNat,
    BitVec.getLsbD_and,BitVec.getLsbD_not,hlow]
  by_cases hi : k ≤ i
  · rw [Nat.sub_add_cancel hi]
    by_cases hw : i<w
    · simp [hi,hw]
    · simp [hw,BitVec.getLsbD_of_ge a i (Nat.not_lt.mp hw)]
  · simp [hi,Nat.not_le.mp hi]

theorem toNat_add_mask_and_not_mask (a mask : BitVec w) (hmask : mask.toNat=2 ^ k - 1)
    (hfits : a.toNat + (2 ^ k - 1)<2 ^ w) :
    ((a + mask) &&& ~~~mask).toNat=(a.toNat + (2 ^ k - 1)) / 2 ^ k * 2 ^ k := by
  rw [toNat_and_not_mask _ _ hmask,BitVec.toNat_add,hmask,Nat.mod_eq_of_lt hfits]

end Hojicha.Framework
