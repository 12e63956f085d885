import Mathlib.Data.List.Infix

/-!
# Streaks

`streakOf a l` is how often `a` stands at the end of `l`, without anything in between. A counter
that goes up where `a` comes and starts over where something else comes is the streak of what
came. The last `k` are all `a` where the streak is at least `k`, and some `k` in a row were where
a beginning of the list has such a streak.
-/

namespace Wari.Lib

universe u

variable {α : Type u} [DecidableEq α]

/-- How often `a` stands at the end of `l`. -/
def streakOf (a : α) (l : List α) : ℕ := (l.reverse.takeWhile (· = a)).length

@[simp] theorem streakOf_nil (a : α) : streakOf a [] = 0 := rfl

/-- **The counter** of a streak: one more for the same, and zero for anything else. -/
theorem streakOf_snoc (a b : α) (l : List α) :
    streakOf a (l ++ [b]) = if b = a then streakOf a l + 1 else 0 := by
  rw [streakOf, List.reverse_append, List.reverse_singleton, List.singleton_append,
    List.takeWhile_cons]
  by_cases hb : b = a
  · rw [if_pos hb, decide_eq_true hb]
    rfl
  · rw [if_neg hb, decide_eq_false hb]
    rfl

/-- **The last `k`** are all `a` exactly if the streak is that long. -/
theorem replicate_suffix_iff {a : α} {k : ℕ} {l : List α} :
    List.replicate k a <:+ l ↔ k ≤ streakOf a l := by
  induction l using List.reverseRecOn generalizing k with
  | nil => simp [List.replicate_eq_nil_iff]
  | append_singleton l b ih =>
    rw [streakOf_snoc]
    cases k with
    | zero => simp
    | succ k =>
      rw [List.replicate_succ', List.suffix_concat_iff]
      by_cases hb : b = a
      · subst hb
        rw [if_pos rfl, Nat.add_le_add_iff_right, ← ih]
        constructor
        · rintro (hnil | ⟨t, ht, hsuffix⟩)
          · cases List.append_eq_nil_iff.mp hnil with
            | intro _ hsingle => cases hsingle
          · rwa [(List.append_inj' ht rfl).1]
        · exact fun h => .inr ⟨_, rfl, h⟩
      · rw [if_neg hb]
        constructor
        · rintro (hnil | ⟨t, ht, -⟩)
          · cases List.append_eq_nil_iff.mp hnil with
            | intro _ hsingle => cases hsingle
          · exact (hb (List.singleton_inj.mp (List.append_inj' ht rfl).2).symm).elim
        · intro hle
          omega

/-- **Some `k` in a row**, after one more: they were there before, or they are the last ones now.
-/
theorem replicate_infix_snoc {a b : α} {k : ℕ} {l : List α} :
    List.replicate k a <:+: l ++ [b] ↔
      List.replicate k a <:+: l ∨ k ≤ streakOf a (l ++ [b]) := by
  rw [List.infix_concat_iff, replicate_suffix_iff, or_comm]

/-- A streak is one of those in a row. -/
theorem infix_of_le_streakOf {a : α} {k : ℕ} {l : List α} (h : k ≤ streakOf a l) :
    List.replicate k a <:+: l :=
  (replicate_suffix_iff.mpr h).isInfix

end Wari.Lib
