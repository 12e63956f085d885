import Mathlib.Data.Nat.ModEq
import Mathlib.Logic.Function.Basic
import Mathlib.Tactic.Common

/-!
# A queue laid out in a ring

`n` cells, of which those from the head on hold the elements of a queue in order and
the others none. Whoever puts elements in goes on from the end of the queue, whoever
takes them out goes on from its head, and both come round.
-/

namespace Wari.Lib.Ring

universe u

variable {α : Type u} {n : ℕ}

/-- The cell that is `m` places after `head`, once round if need be. -/
def after (head : Fin n) (m : ℕ) : Fin n :=
  ⟨(head.val + m) % n, Nat.mod_lt _ (Nat.lt_of_le_of_lt (Nat.zero_le _) head.isLt)⟩

/-! ## Places

The cells of a ring by how far they are from its head. -/

@[simp] theorem after_zero (head : Fin n) : after head 0 = head :=
  Fin.ext (Nat.mod_eq_of_lt head.isLt)

theorem after_after (head : Fin n) (m k : ℕ) : after (after head m) k = after head (m + k) := by
  apply Fin.ext
  change ((head.val + m) % n + k) % n = (head.val + (m + k)) % n
  rw [Nat.mod_add_mod, Nat.add_assoc]

/-- Once round the ring one is back. -/
theorem after_round (head : Fin n) : after head n = head := by
  apply Fin.ext
  change (head.val + n) % n = head.val
  rw [Nat.add_mod_right, Nat.mod_eq_of_lt head.isLt]

/-- Less than once round, no two places are the same. -/
theorem after_inj {head : Fin n} {m k : ℕ} (hm : m < n) (hk : k < n)
    (h : after head m = after head k) : m = k := by
  have hval : (head.val + m) % n = (head.val + k) % n := congrArg Fin.val h
  exact (Nat.ModEq.add_left_cancel' head.val hval).eq_of_lt_of_lt hm hk

/-- Every cell is somewhere after the head, in the first round. -/
theorem exists_after (head j : Fin n) : ∃ m < n, after head m = j := by
  have hhead := head.isLt
  have hj := j.isLt
  by_cases hle : head.val ≤ j.val
  · refine ⟨j.val - head.val, by omega, Fin.ext ?_⟩
    change (head.val + (j.val - head.val)) % n = j.val
    rw [Nat.add_sub_cancel' hle, Nat.mod_eq_of_lt hj]
  · refine ⟨n + j.val - head.val, by omega, Fin.ext ?_⟩
    change (head.val + (n + j.val - head.val)) % n = j.val
    rw [Nat.add_sub_cancel' (by omega), Nat.add_mod_left, Nat.mod_eq_of_lt hj]

/-! ## The queue

A queue laid out in the cells from the head on, and how it moves when something is put in or taken
out. -/

/-- The cells hold the queue `items` from `head` on, and nothing else. -/
structure Laid (cell : Fin n → Option α) (head : Fin n) (items : List α) : Prop where
  room : items.length ≤ n
  get : ∀ m < n, cell (after head m) = items[m]?

namespace Laid

variable {cell : Fin n → Option α} {head : Fin n} {items : List α}

/-- With nothing in any cell, the empty queue is laid out from anywhere. -/
theorem nil (h : ∀ j, cell j = none) (head : Fin n) : Laid cell head [] :=
  ⟨Nat.zero_le _, fun _ _ => h _⟩

theorem empty_iff (h : Laid cell head items) : (∀ j, cell j = none) ↔ items = [] := by
  constructor
  · intro hnone
    by_contra hne
    have hpos : 0 < items.length := List.length_pos_iff.mpr hne
    have hzero := h.get 0 (Nat.lt_of_lt_of_le hpos h.room)
    rw [hnone, List.getElem?_eq_getElem hpos] at hzero
    cases hzero
  · rintro rfl j
    obtain ⟨m, hm, rfl⟩ := exists_after head j
    exact h.get m hm

/-- Every element of the queue lies in some cell. -/
theorem exists_get {x : α} (h : Laid cell head items) (hx : x ∈ items) :
    ∃ j, cell j = some x := by
  obtain ⟨m, hm⟩ := List.mem_iff_getElem?.mp hx
  have hlt : m < items.length := (List.getElem?_eq_some_iff.mp hm).1
  exact ⟨after head m, (h.get m (Nat.lt_of_lt_of_le hlt h.room)).trans hm⟩

/-- Where the cell at the end of the queue is empty, the ring is not full. -/
theorem length_lt (h : Laid cell head items) (hend : cell (after head items.length) = none) :
    items.length < n := by
  refine Nat.lt_of_le_of_ne h.room fun hfull => ?_
  have hpos : 0 < items.length := by
    rw [hfull]
    exact Nat.lt_of_le_of_lt (Nat.zero_le _) head.isLt
  have hround : after head items.length = after head 0 := by
    rw [after_zero]
    exact (congrArg (after head) hfull).trans (after_round head)
  rw [hround, h.get 0 (hfull ▸ hpos), List.getElem?_eq_getElem hpos] at hend
  cases hend

/-- **One more** at the end goes into the first cell behind the queue, if there is one left. -/
theorem push (h : Laid cell head items) (hroom : items.length < n) (x : α) :
    Laid (Function.update cell (after head items.length) (some x)) head (items ++ [x]) := by
  refine ⟨?_, fun m hm => ?_⟩
  · rw [List.length_append, List.length_singleton]
    exact hroom
  · by_cases hlast : m = items.length
    · subst hlast
      rw [Function.update_self, List.getElem?_concat_length]
    · have hne : after head m ≠ after head items.length :=
        fun he => hlast (after_inj hm hroom he)
      rw [Function.update_of_ne hne, h.get m hm]
      by_cases hlt : m < items.length
      · rw [List.getElem?_append_left hlt]
      · rw [List.getElem?_eq_none (by omega),
          List.getElem?_eq_none (by rw [List.length_append, List.length_singleton]; omega)]

/-- **The first** is at the head, and the rest starts one place further. -/
theorem pop {x : α} (h : Laid cell head (x :: items)) :
    cell head = some x ∧ Laid (Function.update cell head none) (after head 1) items := by
  have hroom : items.length + 1 ≤ n := h.room
  have hhead : cell head = some x := by
    have hzero := h.get 0 (by omega)
    rwa [after_zero] at hzero
  refine ⟨hhead, by omega, fun m hm => ?_⟩
  rw [after_after, Nat.add_comm 1 m]
  by_cases hlast : m + 1 = n
  · have hround : after head (m + 1) = head :=
      (congrArg (after head) hlast).trans (after_round head)
    rw [hround, Function.update_self, List.getElem?_eq_none (by omega)]
  · have hne : after head (m + 1) ≠ head := by
      intro he
      have hsame : after head (m + 1) = after head 0 := he.trans (after_zero head).symm
      exact Nat.succ_ne_zero m (after_inj (by omega) (by omega) hsame)
    rw [Function.update_of_ne hne, h.get (m + 1) (by omega), List.getElem?_cons_succ]

end Laid

end Wari.Lib.Ring
