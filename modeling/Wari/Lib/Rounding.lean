import Mathlib.Algebra.GroupWithZero.Nat
import Mathlib.Data.BitVec
import Mathlib.Tactic.Common

/-!
# Rounding up to an alignment

The least multiple of an alignment that is not below a number, and the words that compute it
where the alignment is a power of two: add it less one, and clear the bits below it.
-/

namespace Wari.Lib

/-- The least multiple of `a` not below `n`. -/
def roundUp (a n : ℕ) : ℕ := (n + (a - 1)) / a * a

section RoundUp

variable {a n m : ℕ}

theorem dvd_roundUp (a n : ℕ) : a ∣ roundUp a n := Nat.dvd_mul_left _ _

theorem le_roundUp (ha : 0 < a) (n : ℕ) : n ≤ roundUp a n := by
  have hmod := Nat.mod_lt (n + (a - 1)) ha
  have hdiv := Nat.div_add_mod (n + (a - 1)) a
  rw [Nat.mul_comm] at hdiv
  rw [roundUp]
  omega

theorem roundUp_le_add (a n : ℕ) : roundUp a n ≤ n + (a - 1) := Nat.div_mul_le_self _ _

/-- **It is the least** multiple that is not below the number. -/
theorem roundUp_le (ha : 0 < a) (h : n ≤ m) (hdvd : a ∣ m) : roundUp a n ≤ m := by
  obtain ⟨k, rfl⟩ := hdvd
  rw [roundUp, Nat.mul_comm a k]
  refine Nat.mul_le_mul_right a (Nat.lt_succ_iff.mp ((Nat.div_lt_iff_lt_mul ha).mpr ?_))
  rw [Nat.succ_mul, Nat.mul_comm k a]
  omega

end RoundUp

section Mask

variable {w k : ℕ}

/-- Clearing the bits below a power of two. -/
theorem toNat_and_not_mask (x : BitVec w) {mask : BitVec w} (hmask : mask.toNat = 2 ^ k - 1) :
    (x &&& ~~~mask).toNat = x.toNat / 2 ^ k * 2 ^ k := by
  have hbits : x &&& ~~~mask = (x >>> k) <<< k := by
    apply BitVec.eq_of_getLsbD_eq
    intro i hi
    have hlow : mask.getLsbD i = decide (i < k) := by
      rw [BitVec.getLsbD, hmask, Nat.testBit_two_pow_sub_one]
    rw [BitVec.getLsbD_and, BitVec.getLsbD_not, hlow, BitVec.getLsbD_shiftLeft,
      BitVec.getLsbD_ushiftRight]
    by_cases hik : i < k
    · simp [hik]
    · have hback : k + (i - k) = i := by omega
      simp [hik, hi, hback]
  have hle : x.toNat / 2 ^ k * 2 ^ k < 2 ^ w :=
    Nat.lt_of_le_of_lt (Nat.div_mul_le_self _ _) x.isLt
  rw [hbits, BitVec.toNat_shiftLeft, BitVec.toNat_ushiftRight, Nat.shiftRight_eq_div_pow,
    Nat.shiftLeft_eq, Nat.mod_eq_of_lt hle]

/-- **Rounding in words**, where nothing is carried out of them, is rounding in numbers. -/
theorem toNat_roundUp {x align : BitVec w} (halign : align.toNat = 2 ^ k)
    (hfits : x.toNat + align.toNat < 2 ^ w) :
    ((x + align - 1#w) &&& ~~~(align - 1#w)).toNat = roundUp (2 ^ k) x.toNat := by
  have hpos : 0 < 2 ^ k := Nat.two_pow_pos k
  have hone : (1#w).toNat = 1 := by
    rw [BitVec.toNat_ofNat]
    exact Nat.mod_eq_of_lt (by omega)
  have hsum : (x + align).toNat = x.toNat + 2 ^ k := by
    rw [BitVec.toNat_add, halign]
    exact Nat.mod_eq_of_lt (by omega)
  have hmask : (align - 1#w).toNat = 2 ^ k - 1 := by
    rw [BitVec.toNat_sub_of_le (by rw [BitVec.le_def]; omega), halign, hone]
  have hless : (x + align - 1#w).toNat = x.toNat + (2 ^ k - 1) := by
    rw [BitVec.toNat_sub_of_le (by rw [BitVec.le_def]; omega), hsum, hone]
    omega
  rw [toNat_and_not_mask _ hmask, hless, roundUp]

end Mask

end Wari.Lib
