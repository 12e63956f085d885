import Mathlib.Data.Nat.Digits.Lemmas
import Mathlib.Tactic.Ring
import Wari.Lib.Slice

/-!
# Decimal numerals

A number as digits, the highest first, and the number that digits stand for. A program that
writes one fills a buffer from its end, the last digit first.
-/

namespace Wari.Lib.Decimal

/-- An ASCII digit, by its code. -/
def IsDigit (c : BitVec 8) : Prop := 0x30#8 ≤ c ∧ c ≤ 0x39#8

instance (c : BitVec 8) : Decidable (IsDigit c) := inferInstanceAs (Decidable (_ ∧ _))

/-- The digit that stands for a number below ten. -/
def digit (d : ℕ) : BitVec 8 := 0x30#8 + BitVec.ofNat 8 d

/-- The number that digits stand for, in decimal. -/
def value (ds : Bytes) : ℕ := Nat.ofDigits 10 (ds.map fun c => (c - 0x30#8).toNat).reverse

/-- The digits of a number in decimal, without leading zeros. -/
def numeral (m : ℕ) : Bytes :=
  if m / 10 = 0 then [digit (m % 10)] else numeral (m / 10) ++ [digit (m % 10)]
termination_by m
decreasing_by omega

/-- The digits of `m` in a buffer that is filled from its end: `i` bytes are left in front of
what is there. `none` is an index below zero. -/
def fill : ℕ → ℕ → Bytes → Option (ℕ × Bytes)
  | 0, _, _ => none
  | i + 1, m, buf =>
    if m / 10 = 0 then some (i, digit (m % 10) :: buf) else fill i (m / 10) (digit (m % 10) :: buf)

/-! ## Values

What digits stand for, from the left to the right. -/

@[simp] theorem value_nil : value [] = 0 := rfl

theorem value_cons (c : BitVec 8) (ds : Bytes) :
    value (c :: ds) = (c - 0x30#8).toNat * 10 ^ ds.length + value ds := by
  rw [value, List.map_cons, List.reverse_cons, Nat.ofDigits_append, Nat.ofDigits_singleton,
    List.length_reverse, List.length_map, value]
  ring

theorem value_append (as bs : Bytes) :
    value (as ++ bs) = value as * 10 ^ bs.length + value bs := by
  rw [value, List.map_append, List.reverse_append, Nat.ofDigits_append, List.length_reverse,
    List.length_map, value, value]
  ring

theorem digit_of_lt {d : ℕ} (hd : d < 10) : IsDigit (digit d) ∧ value [digit d] = d := by
  revert d
  decide

/-! ## Numerals

The digits of a number, as they are written, and the buffer that they are filled into from behind.
-/

theorem numeral_of_lt {m : ℕ} (h : m / 10 = 0) : numeral m = [digit (m % 10)] := by
  rw [numeral, if_pos h]

theorem numeral_of_le {m : ℕ} (h : m / 10 ≠ 0) :
    numeral m = numeral (m / 10) ++ [digit (m % 10)] := by
  rw [numeral, if_neg h]

theorem numeral_ne_nil (m : ℕ) : numeral m ≠ [] := by
  rw [numeral]
  split <;> simp

/-- **A numeral stands for its number.** The induction is on the number, by its last digit. -/
theorem value_numeral (m : ℕ) : value (numeral m) = m := by
  induction m using Nat.strongRecOn with
  | ind m ih =>
    have hd : value [digit (m % 10)] = m % 10 := (digit_of_lt (Nat.mod_lt m (by decide))).2
    by_cases hlast : m / 10 = 0
    · rw [numeral_of_lt hlast, hd]
      omega
    · rw [numeral_of_le hlast, value_append, ih (m / 10) (by omega), hd]
      simp only [List.length_singleton]
      omega

theorem isDigit_numeral (m : ℕ) : ∀ c ∈ numeral m, IsDigit c := by
  induction m using Nat.strongRecOn with
  | ind m ih =>
    have hd : IsDigit (digit (m % 10)) := (digit_of_lt (Nat.mod_lt m (by decide))).1
    by_cases hlast : m / 10 = 0
    · rw [numeral_of_lt hlast]
      simpa using hd
    · rw [numeral_of_le hlast]
      intro c hc
      rcases List.mem_append.mp hc with hc | hc
      · exact ih (m / 10) (by omega) c hc
      · obtain rfl := List.mem_singleton.mp hc
        exact hd

/-- A number below `10 ^ k` has at most `k` digits. -/
theorem length_numeral_le {m k : ℕ} (hk : 0 < k) (hm : m < 10 ^ k) : (numeral m).length ≤ k := by
  induction k generalizing m with
  | zero => cases hk
  | succ k ih =>
    by_cases hlast : m / 10 = 0
    · rw [numeral_of_lt hlast]
      exact hk
    · have hpos : 0 < k := by
        rcases k with _ | k
        · omega
        · exact Nat.succ_pos k
      have := ih hpos (Nat.div_lt_of_lt_mul (by rwa [pow_succ'] at hm))
      rw [numeral_of_le hlast, List.length_append, List.length_singleton]
      omega

/-- **Filling a buffer** with enough bytes leaves the numeral in it, at its end, with the rest
untouched. -/
theorem fill_eq {i m : ℕ} (buf : Bytes) (hpos : 0 < i) (hm : m < 10 ^ i) :
    fill i m buf = some (i - (numeral m).length, numeral m ++ buf) := by
  induction i generalizing m buf with
  | zero => cases hpos
  | succ i ih =>
    rw [fill]
    by_cases hlast : m / 10 = 0
    · rw [if_pos hlast, numeral_of_lt hlast]
      rfl
    · have hi : 0 < i := by
        rcases i with _ | i
        · omega
        · exact Nat.succ_pos i
      rw [if_neg hlast, numeral_of_le hlast,
        ih _ hi (Nat.div_lt_of_lt_mul (by rwa [pow_succ'] at hm))]
      simp

end Wari.Lib.Decimal
