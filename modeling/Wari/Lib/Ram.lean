import Wari.Lib.Bytes
import Mathlib.Data.List.GetD

/-!
# Byte-addressed memory

Memory as a function of the address, stores of a run of bytes, and little-endian numbers read
from it. A read sees the last store where the two overlap entirely, and none where they are
apart.
-/

namespace Wari.Lib

/-- A memory of bytes, without an end. -/
abbrev Ram := ℕ → BitVec 8

/-- `[a, a + n)` and `[b, b + m)` have no byte in common. -/
def Apart (a n b m : ℕ) : Prop := a + n ≤ b ∨ b + m ≤ a

instance (a n b m : ℕ) : Decidable (Apart a n b m) := inferInstanceAs (Decidable (_ ∨ _))

namespace Ram

/-- The memory after `bs` is stored at `a`. -/
def write (m : Ram) (a : ℕ) (bs : List (BitVec 8)) : Ram :=
  fun x => if a ≤ x ∧ x < a + bs.length then bs.getD (x - a) 0#8 else m x

/-- The number of `n` bytes at `a`, least significant first. -/
def le (m : Ram) (a n : ℕ) : ℕ := ofLe ((List.range n).map fun k => m (a + k))

variable {m m' : Ram} {a b n : ℕ} {bs : List (BitVec 8)}

theorem write_apart {x : ℕ} (h : x < a ∨ a + bs.length ≤ x) : m.write a bs x = m x :=
  if_neg (by omega)

theorem write_inside {k : ℕ} (h : k < bs.length) : m.write a bs (a + k) = bs.getD k 0#8 := by
  rw [write, if_pos (by omega), Nat.add_sub_cancel_left]

/-- A number is the bytes it is read from. -/
theorem le_congr (h : ∀ k < n, m (a + k) = m' (b + k)) : m.le a n = m'.le b n := by
  rw [le, le]
  congr 1
  exact List.map_congr_left fun k hk => h k (List.mem_range.mp hk)

/-- **A store elsewhere** does not change a number, as long as the two do not overlap. -/
theorem le_write_apart (h : Apart b bs.length a n) : (m.write b bs).le a n = m.le a n := by
  rw [Apart] at h
  exact le_congr fun k hk => write_apart (by omega)

/-- **A number that was stored** is read back, cut down to the bytes that it was stored in. -/
theorem le_write_self (m : Ram) (a n v : ℕ) : (m.write a (toLe n v)).le a n = v % 256 ^ n := by
  rw [← ofLe_toLe, le]
  congr 1
  apply List.ext_getElem
  · simp
  · intro k hk _
    have hlen : k < n := by simpa using hk
    rw [List.getElem_map, List.getElem_range, write_inside (by rwa [length_toLe]),
      List.getD_eq_getElem _ _ (by rwa [length_toLe])]

end Ram

end Wari.Lib
