import Mathlib.Algebra.GroupWithZero.Nat
import Mathlib.Data.BitVec
import Mathlib.Data.List.Range
import Mathlib.Logic.Function.Basic
import Mathlib.Tactic.Common

/-!
# Rings with free-running indices

A ring of `n` slots between one who puts entries in and one who takes them out. Each has an
index of `w` bits that only ever counts up and wraps around; an index stands for the slot it is
modulo `n`. Where `n` divides `2 ^ w` nothing is seen of the wrap: the entries between two
indices are a queue.
-/

namespace Wari.Lib.FreeRunning

variable {α : Type} {w n : ℕ}

/-- The slot that an index stands for, as indices run on past the end of the ring. -/
def slot (n : ℕ) (i : BitVec w) : ℕ := i.toNat % n

/-- How many entries lie between two indices, by the difference that wraps. -/
def count (head tail : BitVec w) : ℕ := (tail - head).toNat

/-- The entries between two indices, the oldest first. -/
def entries (ring : ℕ → α) (n : ℕ) (head tail : BitVec w) : List α :=
  (List.range (count head tail)).map fun k => ring ((head.toNat + k) % n)

/-! ## Counting

Indices that run on and wrap: how many entries lie between them, and how that changes with each.
-/

section Count

variable {head tail : BitVec w}

theorem count_eq_zero : count head tail = 0 ↔ head = tail := by
  have hzero : (0#w).toNat = 0 := rfl
  rw [count, ← hzero, BitVec.toNat_inj, BitVec.sub_eq_iff_eq_add, BitVec.zero_add]
  exact eq_comm

theorem toNat_one_of_lt {k : ℕ} (hpos : k ≠ 0) (hk : k < 2 ^ w) : (1 : BitVec w).toNat = 1 := by
  rcases w with _ | w
  · rw [pow_zero] at hk
    omega
  · exact BitVec.toNat_one (Nat.succ_pos w)

/-- An entry is taken out, and there is one less. -/
theorem count_head (h : head ≠ tail) : count head tail = count (head + 1) tail + 1 := by
  have hpos : count head tail ≠ 0 := fun h' => h (count_eq_zero.mp h')
  have hone : (1 : BitVec w).toNat = 1 := toNat_one_of_lt hpos (tail - head).isLt
  have hle : (1 : BitVec w) ≤ tail - head := by
    rw [BitVec.le_def, hone]
    exact Nat.pos_of_ne_zero hpos
  rw [count, count, sub_add_eq_sub_sub, BitVec.toNat_sub_of_le hle, hone]
  rw [count] at hpos
  omega

/-- An entry is put in, and there is one more, if there was room. -/
theorem count_tail (h : count head tail + 1 < 2 ^ w) :
    count head (tail + 1) = count head tail + 1 := by
  have hone : (1 : BitVec w).toNat = 1 := toNat_one_of_lt (Nat.succ_ne_zero _) h
  rw [count, add_sub_right_comm, BitVec.toNat_add_of_lt (by rwa [hone]), hone]
  rfl

/-- The index of who puts in, without the wrap. -/
theorem slot_tail (hn : n ∣ 2 ^ w) : slot n tail = (head.toNat + count head tail) % n := by
  have h : head + (tail - head) = tail := add_sub_cancel head tail
  rw [slot, ← h, BitVec.toNat_add, Nat.mod_mod_of_dvd _ hn, h]
  rfl

/-- The next index of who takes out is the next slot, as the ring divides the range of the
indices. -/
theorem toNat_succ_add (hn : n ∣ 2 ^ w) (h : head ≠ tail) (k : ℕ) :
    ((head + 1).toNat + k) % n = (head.toNat + (k + 1)) % n := by
  have hpos : count head tail ≠ 0 := fun h' => h (count_eq_zero.mp h')
  have hone : (1 : BitVec w).toNat = 1 := toNat_one_of_lt hpos (tail - head).isLt
  rw [BitVec.toNat_add, hone, Nat.add_mod, Nat.mod_mod_of_dvd _ hn, ← Nat.add_mod, Nat.add_assoc,
    Nat.add_comm 1 k]

end Count

/-! ## The queue

The entries between the two indices as a list, and what taking out and putting in make of it. -/

section Queue

variable {ring : ℕ → α} {head tail : BitVec w}

@[simp] theorem length_entries : (entries ring n head tail).length = count head tail := by
  simp [entries]

@[simp] theorem entries_self (ring : ℕ → α) (n : ℕ) (i : BitVec w) : entries ring n i i = [] := by
  rw [entries, count_eq_zero.mpr rfl]
  rfl

/-- **Taking out** the oldest entry leaves the others in order. -/
theorem entries_head (hn : n ∣ 2 ^ w) (h : head ≠ tail) :
    entries ring n head tail = ring (slot n head) :: entries ring n (head + 1) tail := by
  rw [entries, count_head h, List.range_succ_eq_map, List.map_cons, List.map_map]
  refine congrArg (ring (slot n head) :: ·) (List.map_congr_left fun k _ => ?_)
  exact congrArg ring (toNat_succ_add hn h k).symm

/-- A slot that is free may be written. -/
theorem entries_update (hn : n ∣ 2 ^ w) (hroom : count head tail < n) (a : α) :
    entries (Function.update ring (slot n tail) a) n head tail = entries ring n head tail := by
  have hslot : slot n tail = (head.toNat + count head tail) % n := slot_tail hn
  refine List.map_congr_left fun k hk => Function.update_of_ne ?_ _ _
  -- less than once round, no two slots are the same
  rw [hslot]
  intro hsame
  have hk := List.mem_range.mp hk
  have := (Nat.ModEq.add_left_cancel' head.toNat hsame).eq_of_lt_of_lt (hk.trans hroom) hroom
  omega

/-- **Putting in** an entry: the one in the slot the index stands for. -/
theorem entries_succ (hn : n ∣ 2 ^ w) (hlt : count head tail + 1 < 2 ^ w) :
    entries ring n head (tail + 1) = entries ring n head tail ++ [ring (slot n tail)] := by
  have hslot : slot n tail = (head.toNat + count head tail) % n := slot_tail hn
  rw [entries, count_tail hlt, List.range_succ, List.map_append, List.map_singleton, hslot]
  rfl

end Queue

end Wari.Lib.FreeRunning
