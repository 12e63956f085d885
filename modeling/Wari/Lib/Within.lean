import Mathlib.Data.Nat.Notation
import Wari.Lib.Machine

/-!
# Within so many steps

Where several take part in a machine, one of them gets somewhere by itself: in a bounded
number of its own steps, whichever it takes, and it is never stuck before. A variant that
goes down shows it.
-/

namespace Wari.Lib.Machine

universe u v

variable {σ : Type u} {ι : Type v} {M : Machine σ ι} {own : ι → Prop} {G : σ → Prop}

/-- `G` comes about within `n` steps of `own`, whichever they are, and until then there is one
to take. -/
inductive Within (M : Machine σ ι) (own : ι → Prop) (G : σ → Prop) : ℕ → σ → Prop where
  | now {n : ℕ} {s : σ} (h : G s) : Within M own G n s
  | later {n : ℕ} {s : σ} (hgo : ∃ i t, own i ∧ M.step s i = some t)
      (hall : ∀ i t, own i → M.step s i = some t → Within M own G n t) :
      Within M own G (n + 1) s

theorem Within.mono {m n : ℕ} {s : σ} (h : M.Within own G m s) (hle : m ≤ n) :
    M.Within own G n s := by
  induction h generalizing n with
  | now h => exact .now h
  | later hgo hall ih =>
    obtain ⟨n, rfl⟩ := Nat.exists_eq_add_of_le' (Nat.le_trans (Nat.le_add_left _ _) hle)
    exact .later hgo fun i t hi hstep => ih i t hi hstep (Nat.le_of_succ_le_succ hle)

/-- **Variant rule.** Where a step of one's own is always possible and makes the variant smaller,
the goal is reached in a bounded number of them. -/
theorem within_of_variant {I : σ → Prop} (μ : σ → ℕ)
    (hgo : ∀ s, I s → ¬ G s → ∃ i t, own i ∧ M.step s i = some t)
    (hdown : ∀ s i t, I s → ¬ G s → own i → M.step s i = some t → G t ∨ I t ∧ μ t < μ s)
    {s : σ} (hs : I s) : M.Within own G (μ s + 1) s := by
  -- by induction on the variant; at its end only `G` is left
  induction hn : μ s using Nat.strongRecOn generalizing s with
  | ind n ih =>
    by_cases hG : G s
    · exact .now hG
    · refine .later (hgo s hs hG) fun i t hi hstep => ?_
      rcases hdown s i t hs hG hi hstep with ht | ⟨ht, hlt⟩
      · exact .now ht
      · rw [hn] at hlt
        exact (ih (μ t) hlt ht rfl).mono hlt

end Wari.Lib.Machine
