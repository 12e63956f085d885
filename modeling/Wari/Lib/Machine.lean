import Mathlib.Logic.Relation

/-!
# State machines and their runs

A deterministic labelled machine: `step s i` is the state after input `i`, or
`none` where the machine has no such step. What the rest of the development
needs of it is four rules:

* `always_of_step` — a property of the initial states that every step keeps
  holds in every reachable state;
* `along_of_step` — a property of steps follows along a whole run from an
  invariant;
* `along_of_meets` — where a step keeps an invariant under a guard, what it then
  does follows along every run that meets the guard;
* `along_iff_meets` — where an invariant makes a step good exactly when its
  guard holds, a run is good throughout exactly when it meets the guard at
  every step.

A machine may keep a record of its past next to its state. `Records` says that
the record is nothing but one: without it the machine makes the same runs.
-/

namespace Wari.Lib

universe u v w

/-- A machine over states `σ` and inputs `ι`. -/
structure Machine (σ : Type u) (ι : Type v) where
  /-- the states a run may start in -/
  init : σ → Prop
  /-- the state after an input, `none` where there is no step -/
  step : σ → ι → Option σ

namespace Machine

variable {σ : Type u} {ι : Type v} {M : Machine σ ι}

/-- `M.Run s is t`: the inputs `is`, taken one after another, lead from `s`
to `t`. -/
inductive Run (M : Machine σ ι) : σ → List ι → σ → Prop where
  /-- the empty run -/
  | nil (s : σ) : Run M s [] s
  /-- one step, then the rest -/
  | cons {s t u : σ} {i : ι} {is : List ι} (h : M.step s i = some t) (r : Run M t is u) :
      Run M s (i :: is) u

/-- The states some run from an initial state leads to. -/
def Reachable (M : Machine σ ι) (s : σ) : Prop :=
  ∃ s₀ is, M.init s₀ ∧ M.Run s₀ is s

/-- `P` holds in every reachable state of the machine. -/
def Always (M : Machine σ ι) (P : σ → Prop) : Prop :=
  ∀ s, M.Reachable s → P s

/-- Every step the run `is` from `s` takes satisfies `Q` (of the state before,
the input and the state after). -/
def Along (M : Machine σ ι) (Q : σ → ι → σ → Prop) : σ → List ι → Prop
  | _, [] => True
  | s, i :: is => ∀ t, M.step s i = some t → Q s i t ∧ M.Along Q t is

/-- Every step the run `is` from `s` takes starts where its guard `G` holds. -/
def Meets (M : Machine σ ι) (G : σ → ι → Prop) (s : σ) (is : List ι) : Prop :=
  M.Along (fun s i _ => G s i) s is

theorem Run.append {s t u : σ} {is js : List ι} (h₁ : M.Run s is t) (h₂ : M.Run t js u) :
    M.Run s (is ++ js) u := by
  induction h₁ with
  | nil s => exact h₂
  | cons h r ih => exact .cons h (ih h₂)

/-- A run ends with its last step, as it begins with its first. -/
theorem Run.snoc {s t u : σ} {is : List ι} {i : ι} (h₁ : M.Run s is t)
    (h₂ : M.step t i = some u) : M.Run s (is ++ [i]) u :=
  h₁.append (.cons h₂ (.nil u))

theorem Reachable.init {s : σ} (h : M.init s) : M.Reachable s :=
  ⟨s, [], h, .nil s⟩

theorem Reachable.step {s t : σ} {i : ι} (h : M.Reachable s) (hs : M.step s i = some t) :
    M.Reachable t := by
  obtain ⟨s₀, is, h₀, hr⟩ := h
  exact ⟨s₀, is ++ [i], h₀, hr.snoc hs⟩

/-- What every step keeps, a whole run keeps. -/
theorem Run.keeps {I : σ → Prop} (hstep : ∀ s i t, I s → M.step s i = some t → I t)
    {s t : σ} {is : List ι} (hr : M.Run s is t) (hs : I s) : I t := by
  induction hr with
  | nil s => exact hs
  | cons h r ih => exact ih (hstep _ _ _ hs h)

/-- **Invariant rule.** What holds at the start, and is kept by every step, holds in every
reachable state. -/
theorem always_of_step {I : σ → Prop} (hinit : ∀ s, M.init s → I s)
    (hstep : ∀ s i t, I s → M.step s i = some t → I t) : M.Always I := by
  rintro s ⟨s₀, is, h₀, hr⟩
  exact hr.keeps hstep (hinit s₀ h₀)

theorem Always.mono {P Q : σ → Prop} (h : M.Always P) (hPQ : ∀ s, P s → Q s) : M.Always Q :=
  fun s hs => hPQ s (h s hs)

/-- Unfolding a run at a step it takes. -/
theorem along_cons {Q : σ → ι → σ → Prop} {s t : σ} {i : ι} {is : List ι}
    (h : M.step s i = some t) : M.Along Q s (i :: is) ↔ Q s i t ∧ M.Along Q t is := by
  constructor
  · intro ha
    exact ha t h
  · intro hq t' ht'
    obtain rfl : t = t' := Option.some.inj (h.symm.trans ht')
    exact hq

/-- A property of every step of a run is one of every step of what follows a
part of it. -/
theorem along_append {Q : σ → ι → σ → Prop} {s t : σ} {is js : List ι} (hr : M.Run s is t)
    (h : M.Along Q s (is ++ js)) : M.Along Q t js := by
  induction hr with
  | nil s => exact h
  | cons hs r ih => exact ih ((along_cons hs).mp h).2

/-- **Step rule.** A step property that follows from an invariant holds along
every run. -/
theorem along_of_step {I : σ → Prop} {Q : σ → ι → σ → Prop}
    (hstep : ∀ s i t, I s → M.step s i = some t → Q s i t ∧ I t) :
    ∀ (is : List ι) (s : σ), I s → M.Along Q s is := by
  intro is
  induction is with
  | nil => intro s _; trivial
  | cons i is ih =>
    intro s hs t ht
    obtain ⟨hq, ht'⟩ := hstep s i t hs ht
    exact ⟨hq, ih t ht'⟩

/-- Where a step keeps the invariant `I` and satisfies `Q` whenever its guard holds, a run
that meets the guard throughout satisfies `Q` throughout. -/
theorem along_of_meets {I : σ → Prop} {Q : σ → ι → σ → Prop} {G : σ → ι → Prop}
    (hgood : ∀ s i t, I s → M.step s i = some t → G s i → Q s i t ∧ I t) :
    ∀ (is : List ι) (s : σ), I s → M.Meets G s is → M.Along Q s is := by
  intro is
  induction is with
  | nil => intro s _ _; trivial
  | cons i is ih =>
    intro s hs hm t ht
    obtain ⟨hg, hrest⟩ := hm t ht
    obtain ⟨hq, ht'⟩ := hgood s i t hs ht hg
    exact ⟨hq, ih t ht' hrest⟩

/-- **Guard rule.** If, where the invariant `I` holds, a step keeps `I` and
satisfies `Q` whenever its guard holds, and satisfies `Q` only then, a run
satisfies `Q` throughout exactly when it meets the guard throughout. -/
theorem along_iff_meets {I : σ → Prop} {Q : σ → ι → σ → Prop} {G : σ → ι → Prop}
    (hgood : ∀ s i t, I s → M.step s i = some t → G s i → Q s i t ∧ I t)
    (hbad : ∀ s i t, I s → M.step s i = some t → Q s i t → G s i) :
    ∀ (is : List ι) (s : σ), I s → (M.Along Q s is ↔ M.Meets G s is) := by
  intro is s hs
  refine ⟨?_, along_of_meets hgood is s hs⟩
  induction is generalizing s with
  | nil => intro _; trivial
  | cons i is ih =>
    intro ha t ht
    obtain ⟨hq, hrest⟩ := ha t ht
    have hg : G s i := hbad s i t hs ht hq
    exact ⟨hg, ih t (hgood s i t hs ht hg).2 hrest⟩

/-! ## Records

A machine that writes down what another does, without being asked for it: their runs are the same.
-/

section Records

variable {τ : Type w} {N : Machine τ ι} {forget : σ → τ}

/-- `M` is `N` with a record on the side. `forget` drops the record, which neither
allows a step nor forbids one. -/
def Records (M : Machine σ ι) (N : Machine τ ι) (forget : σ → τ) : Prop :=
  ∀ s i, (M.step s i).map forget = N.step (forget s) i

/-- A run without its record is a run. -/
theorem Run.erase (h : M.Records N forget) {s t : σ} {is : List ι} (hr : M.Run s is t) :
    N.Run (forget s) is (forget t) := by
  induction hr with
  | nil s => exact .nil _
  | @cons s t u i is hs r ih =>
    have hn : N.step (forget s) i = some (forget t) := by rw [← h s i, hs]; rfl
    exact .cons hn ih

/-- Every run can be recorded: the machine with the record has one that looks the same. -/
theorem Run.record (h : M.Records N forget) {s : σ} {t : τ} {is : List ι}
    (hr : N.Run (forget s) is t) : ∃ s', M.Run s is s' ∧ forget s' = t := by
  generalize hs : forget s = t₀ at hr
  induction hr generalizing s with
  | nil t => exact ⟨s, .nil s, hs⟩
  | @cons t₀ t₁ u i is hstep r ih =>
    rw [← hs, ← h s i] at hstep
    obtain ⟨s₁, hs₁, he⟩ := Option.map_eq_some_iff.mp hstep
    obtain ⟨s', hr', hu⟩ := ih he
    exact ⟨s', .cons hs₁ hr', hu⟩

/-- The runs of a machine are the runs with a record, without it. -/
theorem Records.run_iff (h : M.Records N forget) {s : σ} {t : τ} {is : List ι} :
    N.Run (forget s) is t ↔ ∃ s', M.Run s is s' ∧ forget s' = t := by
  constructor
  · exact Run.record h
  · rintro ⟨s', hr, rfl⟩
    exact hr.erase h

/-- **Record rule.** Where the machines start in the same states but for the record, they
reach the same states but for it. -/
theorem Records.reachable_iff (h : M.Records N forget)
    (hinit : ∀ t, N.init t ↔ ∃ s, M.init s ∧ forget s = t) {t : τ} :
    N.Reachable t ↔ ∃ s, M.Reachable s ∧ forget s = t := by
  constructor
  · rintro ⟨t₀, is, h₀, hr⟩
    obtain ⟨s₀, hs₀, rfl⟩ := (hinit t₀).mp h₀
    obtain ⟨s, hrs, hs⟩ := h.run_iff.mp hr
    exact ⟨s, ⟨s₀, is, hs₀, hrs⟩, hs⟩
  · rintro ⟨s, ⟨s₀, is, h₀, hr⟩, rfl⟩
    exact ⟨forget s₀, is, (hinit _).mpr ⟨s₀, h₀, rfl⟩, h.run_iff.mpr ⟨s, hr, rfl⟩⟩

end Records

end Machine

end Wari.Lib
