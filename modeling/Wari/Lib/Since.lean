import Wari.Lib.Machine
import Mathlib.Data.List.Induction
import Mathlib.Tactic.Common

/-!
# What came last

A flag that some steps of a machine set and others clear tells, at the end of a run, which of
the two came last. `M.Since S R s is t` says that a step of the run was one of `S` and no later
one of `R`, and `since_iff` that this is what such a flag stands for.
-/

namespace Wari.Lib.Machine

universe u v

variable {σ : Type u} {ι : Type v} {M : Machine σ ι} {s t u : σ} {is : List ι} {i : ι}

theorem run_nil : M.Run s [] t ↔ t = s := by
  constructor
  · intro h
    cases h
    rfl
  · rintro rfl
    exact .nil t

/-- A run is one up to its last step, and that step. -/
theorem run_snoc : M.Run s (is ++ [i]) u ↔ ∃ t, M.Run s is t ∧ M.step t i = some u := by
  constructor
  · intro h
    induction is generalizing s with
    | nil =>
      cases h with
      | cons hstep hrest =>
        obtain rfl := run_nil.mp hrest
        exact ⟨s, .nil s, hstep⟩
    | cons j js ih =>
      cases h with
      | cons hstep hrest =>
        obtain ⟨t, hrun, hlast⟩ := ih hrest
        exact ⟨t, .cons hstep hrun, hlast⟩
  · rintro ⟨t, hrun, hstep⟩
    exact hrun.snoc hstep

/-- A run leads to one state only, as steps are functions. -/
theorem Run.unique {t' : σ} (h : M.Run s is t) (h' : M.Run s is t') : t = t' := by
  induction h with
  | nil s => exact (run_nil.mp h').symm
  | cons hstep hrest ih =>
    cases h' with
    | cons hstep' hrest' =>
      obtain rfl := Option.some.inj (hstep.symm.trans hstep')
      exact ih hrest'

/-- A step of the run is one of `S`, and no later step is one of `R`. -/
inductive Since (M : Machine σ ι) (S R : σ → ι → σ → Prop) (s : σ) : List ι → σ → Prop where
  /-- it is the last one -/
  | now {is : List ι} {i : ι} {t u : σ} (hrun : M.Run s is t) (hstep : M.step t i = some u)
      (hS : S t i u) : Since M S R s (is ++ [i]) u
  /-- it came before, and the last one is not of `R` -/
  | later {is : List ι} {i : ι} {t u : σ} (hsince : Since M S R s is t)
      (hstep : M.step t i = some u) (hR : ¬ R t i u) : Since M S R s (is ++ [i]) u

variable {S R : σ → ι → σ → Prop}

theorem Since.run (h : M.Since S R s is t) : M.Run s is t := by
  induction h with
  | now hrun hstep _ => exact hrun.snoc hstep
  | later _ hstep _ ih => exact ih.snoc hstep

theorem not_since_nil : ¬ M.Since S R s [] t := by
  intro h
  generalize hnil : ([] : List ι) = is at h
  cases h with
  | now => exact List.append_ne_nil_of_right_ne_nil _ (List.cons_ne_nil _ _) hnil.symm
  | later => exact List.append_ne_nil_of_right_ne_nil _ (List.cons_ne_nil _ _) hnil.symm

/-- The last step of a run is what counts, and what came before it. -/
theorem since_snoc (hrun : M.Run s is t) (hstep : M.step t i = some u) :
    M.Since S R s (is ++ [i]) u ↔ S t i u ∨ M.Since S R s is t ∧ ¬ R t i u := by
  constructor
  · intro h
    generalize hlist : is ++ [i] = js at h
    cases h with
    | now hrun' hstep' hS =>
      obtain ⟨rfl, hlast⟩ := List.append_inj' hlist rfl
      obtain rfl := List.singleton_inj.mp hlast
      obtain rfl := hrun.unique hrun'
      exact .inl hS
    | later hsince hstep' hR =>
      obtain ⟨rfl, hlast⟩ := List.append_inj' hlist rfl
      obtain rfl := List.singleton_inj.mp hlast
      obtain rfl := hrun.unique hsince.run
      exact .inr ⟨hsince, hR⟩
  · rintro (hS | ⟨hsince, hR⟩)
    · exact .now hrun hstep hS
    · exact .later hsince hstep hR

/-- **What a flag stands for** that the steps of `S` set and those of `R` clear. -/
theorem since_iff {I flag : σ → Prop} (hI : ∀ s i t, I s → M.step s i = some t → I t)
    (hset : ∀ s i t, I s → M.step s i = some t → S s i t → flag t)
    (hclear : ∀ s i t, I s → M.step s i = some t → R s i t → ¬ flag t)
    (hkeep : ∀ s i t, I s → M.step s i = some t → ¬ S s i t → ¬ R s i t → (flag t ↔ flag s))
    (hs : I s) (hdown : ¬ flag s) (hrun : M.Run s is t) : flag t ↔ M.Since S R s is t := by
  induction is using List.reverseRecOn generalizing t with
  | nil =>
    obtain rfl := run_nil.mp hrun
    exact ⟨fun h => (hdown h).elim, fun h => (not_since_nil h).elim⟩
  | append_singleton is i ih =>
    obtain ⟨m, hrun, hstep⟩ := run_snoc.mp hrun
    have hm : I m := hrun.keeps hI hs
    rw [since_snoc hrun hstep, ← ih hrun]
    by_cases hS : S m i t
    · exact ⟨fun _ => .inl hS, fun _ => hset m i t hm hstep hS⟩
    · by_cases hR : R m i t
      · exact ⟨fun h => (hclear m i t hm hstep hR h).elim,
          fun h => (h.resolve_left hS).2 hR |>.elim⟩
      · rw [hkeep m i t hm hstep hS hR]
        exact ⟨fun h => .inr ⟨h, hR⟩, fun h => (h.resolve_left hS).1⟩

end Wari.Lib.Machine
