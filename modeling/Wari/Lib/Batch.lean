import Mathlib.Tactic.Common

/-!
# Counted loops that stop early

`batch body n s` runs `body 0`, `body 1`, …, at most `n` of them, and stops where one
breaks. It returns the number that went through and the state it stopped in, which
is not always the state after that many: a break may leave something behind.
-/

namespace Wari.Lib

universe u

variable {σ : Type u}

/-! ## Chains of numbered steps

The rounds that a loop went through, numbered from the first, as a chain of states. -/

/-- `Chain R s k t`: the steps `R 0`, …, `R (k - 1)` lead from `s` to `t`. -/
inductive Chain (R : ℕ → σ → σ → Prop) (s : σ) : ℕ → σ → Prop where
  /-- no step -/
  | zero : Chain R s 0 s
  /-- one more -/
  | succ {k : ℕ} {t u : σ} (h : Chain R s k t) (hstep : R k t u) : Chain R s (k + 1) u

namespace Chain

variable {R S : ℕ → σ → σ → Prop} {s t u : σ} {k : ℕ}

theorem mono (h : Chain R s k t) (hRS : ∀ i t u, R i t u → S i t u) : Chain S s k t := by
  induction h with
  | zero => exact .zero
  | succ _ hstep ih => exact ih.succ (hRS _ _ _ hstep)

/-- Steps that lead to one state each lead to one state together. -/
theorem unique (hR : ∀ i t u v, R i t u → R i t v → u = v) (h : Chain R s k t)
    (h' : Chain R s k u) : t = u := by
  induction h generalizing u with
  | zero =>
    cases h'
    rfl
  | succ _ hstep ih =>
    cases h' with
    | succ h' hstep' =>
      obtain rfl := ih h'
      exact hR _ _ _ _ hstep hstep'

end Chain

/-! ## The loop

A loop with a bound on its rounds, any of which may break out of it. The state it breaks with is
kept. -/

/-- The loop from index `i` on, with `left` iterations left. -/
def batchFrom (body : ℕ → σ → Except σ σ) : (left i : ℕ) → σ → ℕ × σ
  | 0, i, s => (i, s)
  | left + 1, i, s =>
    match body i s with
    | .error t => (i, t)
    | .ok t => batchFrom body left (i + 1) t

/-- At most `n` iterations, and how many there were. A loop that breaks leaves what it has so far.
-/
def batch (body : ℕ → σ → Except σ σ) (n : ℕ) (s : σ) : ℕ × σ := batchFrom body n 0 s

/-- An iteration that goes through, as opposed to one that breaks. -/
def Goes (body : ℕ → σ → Except σ σ) (i : ℕ) (s t : σ) : Prop := body i s = .ok t

section Batch

variable {body : ℕ → σ → Except σ σ} {s t u : σ} {n i k : ℕ}

theorem Goes.unique (h : Goes body i s t) (h' : Goes body i s u) : t = u :=
  Except.ok.inj (h.symm.trans h')

/-- The loop from where `i` iterations went through. -/
theorem batchFrom_spec {left : ℕ} (h : Chain (Goes body) s i t)
    (hrun : batchFrom body left i t = (k, u)) :
    ∃ v, Chain (Goes body) s k v ∧
      (k = i + left ∧ u = v ∨ k < i + left ∧ body k v = .error u) := by
  induction left generalizing i t with
  | zero =>
    obtain ⟨rfl, rfl⟩ := Prod.mk.inj hrun
    exact ⟨t, h, .inl ⟨rfl, rfl⟩⟩
  | succ left ih =>
    rw [batchFrom] at hrun
    rcases hbody : body i t with w | w
    · rw [hbody] at hrun
      obtain ⟨rfl, rfl⟩ := Prod.mk.inj hrun
      exact ⟨t, h, .inr ⟨by omega, hbody⟩⟩
    · rw [hbody] at hrun
      obtain ⟨v, hv, hend⟩ := ih (h.succ hbody) hrun
      refine ⟨v, hv, ?_⟩
      rwa [show i + (left + 1) = i + 1 + left by omega]

/-- **What the loop comes to**: `k` iterations went through, and either that is all of
them or the next one broke. -/
theorem batch_spec (hrun : batch body n s = (k, u)) :
    ∃ v, Chain (Goes body) s k v ∧ (k = n ∧ u = v ∨ k < n ∧ body k v = .error u) := by
  have h := batchFrom_spec .zero hrun
  rwa [Nat.zero_add] at h

/-- The loop passes through where its iterations lead. -/
theorem batchFrom_of_chain (h : Chain (Goes body) s k t) (hk : k ≤ n) :
    batch body n s = batchFrom body (n - k) k t := by
  induction h with
  | zero => rfl
  | @succ k t u _ hstep ih =>
    rw [ih (by omega), show n - k = (n - (k + 1)) + 1 by omega, batchFrom, hstep]

/-- An iteration that breaks ends the loop, with the state it broke with. -/
theorem batch_of_break (h : Chain (Goes body) s k t) (hk : k < n) (hbreak : body k t = .error u) :
    batch body n s = (k, u) := by
  rw [batchFrom_of_chain h (Nat.le_of_lt hk), show n - k = (n - k - 1) + 1 by omega, batchFrom,
    hbreak]

end Batch

end Wari.Lib
