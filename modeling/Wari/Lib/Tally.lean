import Mathlib.Data.Fintype.Card

/-!
# Counting the points of a table

`tally P f` is the number of points of the finite table `f` whose entry
satisfies `P`. A reference count is such a number, and the one fact an
incremental count needs is `tally_change`: where two tables agree off one point,
their tallies differ by what happened at that point.
-/

namespace Wari.Lib

universe u v

variable {α : Type u} {β : Type v} [Fintype α]

/-- The number of points whose entry satisfies `P`. -/
def tally (P : β → Prop) [DecidablePred P] (f : α → β) : ℕ :=
  (Finset.univ.filter fun a => P (f a)).card

variable {P : β → Prop} [DecidablePred P]

theorem tally_pos {f : α → β} : 0 < tally P f ↔ ∃ a, P (f a) := by
  simp [tally, Finset.card_pos, Finset.filter_nonempty_iff]

theorem tally_le (f : α → β) : tally P f ≤ Fintype.card α :=
  Finset.card_le_univ _

/-- Tables with the same points in `P` have the same tally. -/
theorem tally_congr {f g : α → β} (h : ∀ a, P (f a) ↔ P (g a)) : tally P f = tally P g := by
  rw [tally]
  congr 1
  ext a
  simp [h a]

/-- **One entry changes**, and the tally by what it counted for before and counts for now. -/
theorem tally_change [DecidableEq α] {f g : α → β} (a : α) (h : ∀ b, b ≠ a → g b = f b) :
    tally P g + (if P (f a) then 1 else 0) = tally P f + (if P (g a) then 1 else 0) := by
  have hsplit : ∀ k : α → β,
      tally P k = ((Finset.univ.erase a).filter fun b => P (k b)).card +
        (if P (k a) then 1 else 0) := by
    intro k
    rw [tally]
    rw [← Finset.insert_erase (Finset.mem_univ a), Finset.filter_insert]
    split
    · rw [Finset.card_insert_of_notMem (by simp)]
      simp
    · simp
  have hrest : ((Finset.univ.erase a).filter fun b => P (g b)) =
      ((Finset.univ.erase a).filter fun b => P (f b)) := by
    apply Finset.filter_congr
    intro b hb
    rw [h b (Finset.ne_of_mem_erase hb)]
  rw [hsplit g, hsplit f, hrest]
  omega

/-- A point more in `P`, and none less, is a larger tally. -/
theorem tally_lt {f g : α → β} (h : ∀ a, P (f a) → P (g a)) {a : α} (hf : ¬ P (f a))
    (hg : P (g a)) : tally P f < tally P g := by
  refine Finset.card_lt_card ⟨fun b hb => ?_, fun hsub => ?_⟩
  · simp only [Finset.mem_filter, Finset.mem_univ, true_and] at hb ⊢
    exact h b hb
  · have ha := hsub (Finset.mem_filter.mpr ⟨Finset.mem_univ a, hg⟩)
    exact hf (Finset.mem_filter.mp ha).2

end Wari.Lib
