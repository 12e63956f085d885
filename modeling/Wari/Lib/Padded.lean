import Mathlib.Data.List.DropRight
import Wari.Lib.Bytes

/-!
# Fields of fixed size

A field holds at most so many bytes, and is filled up with zeros. Fields are written one after the
other into a buffer of zeros.
-/

namespace Wari.Lib

variable {bs front rest : List (BitVec 8)} {i n : ℕ}

def zeros (n : ℕ) : List (BitVec 8) := List.replicate n 0

@[simp] theorem length_zeros (n : ℕ) : (zeros n).length = n := List.length_replicate

theorem zeros_add (m n : ℕ) : zeros (m + n) = zeros m ++ zeros n :=
  List.replicate_append_replicate.symm

/-- The bytes of a field, filled up with zeros to its length. -/
def padded (n : ℕ) (bs : List (BitVec 8)) : List (BitVec 8) := bs ++ zeros (n - bs.length)

theorem length_padded (h : bs.length ≤ n) : (padded n bs).length = n := by
  rw [padded, List.length_append, length_zeros, Nat.add_sub_cancel' h]

/-- A field with no room left is not padded. -/
theorem padded_of_length_eq (h : bs.length = n) : padded n bs = bs := by
  rw [padded, h, Nat.sub_self]
  exact List.append_nil bs

/-- **The next field** is written into the zeros behind those before it. -/
theorem writeAt_padded (hi : i = front.length) (h : bs.length ≤ n) :
    writeAt (front ++ (zeros n ++ rest)) i bs = some (front ++ padded n bs ++ rest) := by
  have hsplit : zeros n = zeros bs.length ++ zeros (n - bs.length) := by
    rw [← zeros_add, Nat.add_sub_cancel' h]
  rw [hsplit, List.append_assoc, writeAt_middle front (zeros bs.length) rfl hi (length_zeros _),
    padded, List.append_assoc, List.append_assoc]

/-- **What a field holds** is told by its bytes, if it does not end in a zero. -/
theorem rdropWhile_padded (h : bs.getLast? ≠ some 0) (n : ℕ) :
    (padded n bs).rdropWhile (· == 0) = bs := by
  rw [padded]
  generalize n - bs.length = k
  induction k with
  | zero =>
    have hnil : bs ++ zeros 0 = bs := List.append_nil bs
    rw [hnil, List.rdropWhile_eq_self_iff]
    intro hne hlast
    exact h (by rw [List.getLast?_eq_some_getLast hne, eq_of_beq hlast])
  | succ k ih =>
    have hconcat : bs ++ zeros (k + 1) = bs ++ zeros k ++ [0] := by
      rw [zeros_add, ← List.append_assoc]
      rfl
    rw [hconcat, List.rdropWhile_concat_pos _ _ _ (by decide), ih]

end Wari.Lib
