import Mathlib.Data.Nat.Notation

/-!
# Deterministic stepping

A state either steps to the next or ends with a result. Whoever walks `n` steps has not ended
before, so the result is unique, and a walk is no longer than what there is to run.
-/

namespace Wari.Lib

universe u v

variable {σ : Type u} {ρ : Type v} {step : σ → σ ⊕ ρ}

/-- The result that is reached within so many steps, if one is. -/
def runFor (step : σ → σ ⊕ ρ) : ℕ → σ → Option ρ
  | 0, _ => none
  | n + 1, s =>
    match step s with
    | .inl t => runFor step n t
    | .inr r => some r

/-- `n` steps lead from one state to another. -/
inductive Walk (step : σ → σ ⊕ ρ) : ℕ → σ → σ → Prop where
  | nil (s : σ) : Walk step 0 s s
  | cons {n : ℕ} {s t u : σ} (h : step s = .inl t) (w : Walk step n t u) : Walk step (n + 1) s u

theorem Walk.single {s t : σ} (h : step s = .inl t) : Walk step 1 s t := .cons h (.nil t)

theorem Walk.append {n m : ℕ} {s t u : σ} (h₁ : Walk step n s t) (h₂ : Walk step m t u) :
    Walk step (n + m) s u := by
  induction h₁ with
  | nil s => rwa [Nat.zero_add]
  | @cons n s t u h w ih =>
    rw [Nat.add_right_comm]
    exact .cons h (ih h₂)

theorem Walk.snoc {n : ℕ} {s t u : σ} (h₁ : Walk step n s t) (h₂ : step t = .inl u) :
    Walk step (n + 1) s u :=
  h₁.append (.single h₂)

/-- **A walk** is the first part of a run, so that what is left to do begins where it ends. -/
theorem Walk.runFor_add {n : ℕ} {s t : σ} (h : Walk step n s t) (m : ℕ) :
    runFor step (n + m) s = runFor step m t := by
  induction h with
  | nil s => rw [Nat.zero_add]
  | @cons n s t u h w ih =>
    rw [Nat.add_right_comm, runFor, h]
    exact ih

/-- A walk that ends gives the result, in one step more. -/
theorem Walk.runFor_eq {n : ℕ} {s t : σ} {r : ρ} (h : Walk step n s t) (hr : step t = .inr r) :
    runFor step (n + 1) s = some r := by
  rw [h.runFor_add, runFor, hr]

/-- More steps do not change a result that is there. -/
theorem runFor_mono {n : ℕ} {s : σ} {r : ρ} (h : runFor step n s = some r) (m : ℕ) :
    runFor step (n + m) s = some r := by
  induction n generalizing s with
  | zero => cases h
  | succ n ih =>
    rw [Nat.add_right_comm, runFor]
    rw [runFor] at h
    rcases hs : step s with t | r'
    · rw [hs] at h
      exact ih h
    · rw [hs] at h
      exact h

/-- **The result is unique**, however many steps one allows for. -/
theorem runFor_unique {n m : ℕ} {s : σ} {r r' : ρ} (h : runFor step n s = some r)
    (h' : runFor step m s = some r') : r = r' := by
  have hn := runFor_mono h m
  rw [Nat.add_comm, runFor_mono h' n] at hn
  exact (Option.some.inj hn).symm

/-- **Who ends within `n` steps** does not walk `n` of them, since the end is a step of its own.
-/
theorem Walk.lt_of_runFor {n m : ℕ} {s t : σ} {r : ρ} (h : Walk step m s t)
    (hr : runFor step n s = some r) : m < n := by
  refine Nat.lt_of_not_le fun hge => ?_
  obtain ⟨j, rfl⟩ := Nat.exists_eq_add_of_le hge
  have hnone := h.runFor_add 0
  rw [Nat.add_zero, runFor_mono hr j] at hnone
  cases hnone

end Wari.Lib
