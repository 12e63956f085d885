import Wari.Lib.Machine

/-!
# Programs that make calls

A program over an interface: it is done, or it makes a call and goes on with the answer. It
runs in a world that answers its calls, and that changes between any two of them.

`Triple` says that from a state where the precondition holds, the program keeps an invariant at
every call, and that the postcondition holds where it is done. Assertions between two calls have
to be stable: what the world does on its own must not make them false. There is a rule for each
way to make a program, and for programs that may fail.

`World.threaded` is the machine of a program and its world that take turns, and
`always_of_triple` is what triples say of its runs.
-/

namespace Wari.Lib

universe u v w x y

/-- A program that makes calls `ι`, each answered with a `ρ`, and ends with an `α`. -/
inductive Script (ι : Type u) (ρ : Type v) (α : Type w) where
  | done (a : α)
  | call (i : ι) (next : ρ → Script ι ρ α)

namespace Script

variable {ι : Type u} {ρ : Type v} {α β : Type w}

/-- One program after another, which goes on with the value of the first. -/
protected def bind (p : Script ι ρ α) (f : α → Script ι ρ β) : Script ι ρ β :=
  match p with
  | .done a => f a
  | .call i next => .call i fun r => (next r).bind f

instance : Monad (Script ι ρ) where
  pure := .done
  bind := Script.bind

/-- The program that makes one call, and has its answer as the value. -/
def perform (i : ι) : Script ι ρ ρ := .call i .done

end Script

/-! ## Worlds

What a program calls: how the world answers, and what else may happen in it between two calls. -/

/-- What answers the calls of a program, and what else goes on. -/
structure World (σ : Type u) (ι : Type v) (ρ : Type w) (ε : Type x) where
  /-- the state after a call that was answered so, `none` where it is not answered so -/
  act : σ → ι → ρ → Option σ
  /-- the state after an event that is not the program's -/
  env : σ → ε → Option σ

namespace World

variable {σ : Type u} {ι : Type v} {ρ : Type w} {ε : Type x} {W : World σ ι ρ ε}

/-- What the world does on its own does not make `P` false. -/
def Stable (W : World σ ι ρ ε) (P : σ → Prop) : Prop := ∀ s e t, W.env s e = some t → P s → P t

end World

/-! ## Triples

What holds before a program and after it, whatever happens in the world meanwhile. -/

namespace Script

variable {σ : Type u} {ι : Type v} {ρ : Type w} {ε : Type x} {α β : Type y}
  {W : World σ ι ρ ε} {J P : σ → Prop}

/-- From a state where `P` holds, `p` keeps `J` at every call, and leads to `Q` where it is
done. The assertion between two calls is one the world does not make false. -/
inductive Triple (W : World σ ι ρ ε) (J : σ → Prop) :
    (σ → Prop) → Script ι ρ α → (α → σ → Prop) → Prop where
  | done {P : σ → Prop} {a : α} {Q : α → σ → Prop} (hQ : ∀ s, P s → J s ∧ Q a s) :
      Triple W J P (.done a) Q
  | call {P : σ → Prop} {i : ι} {next : ρ → Script ι ρ α} {Q : α → σ → Prop}
      (R : ρ → σ → Prop) (hR : ∀ r, W.Stable (R r)) (hJ : ∀ s, P s → J s)
      (hact : ∀ s r t, P s → W.act s i r = some t → R r t)
      (hnext : ∀ r, Triple W J (R r) (next r) Q) : Triple W J P (.call i next) Q

theorem Triple.pre {P' : σ → Prop} {p : Script ι ρ α} {Q : α → σ → Prop} (h : Triple W J P p Q)
    (hP : ∀ s, P' s → P s) : Triple W J P' p Q := by
  cases h with
  | done hQ => exact .done fun s hs => hQ s (hP s hs)
  | call R hR hJ hact hnext =>
    exact .call R hR (fun s hs => hJ s (hP s hs)) (fun s r t hs => hact s r t (hP s hs)) hnext

theorem triple_pure {a : α} {Q : α → σ → Prop} (hQ : ∀ s, P s → J s ∧ Q a s) :
    Triple W J P (pure a : Script ι ρ α) Q :=
  .done hQ

/-- **One program after another**: the condition between the two is any that the first
establishes. -/
theorem triple_bind {p : Script ι ρ α} {f : α → Script ι ρ β} {R : α → σ → Prop}
    {Q : β → σ → Prop} (hp : Triple W J P p R) (hf : ∀ a, Triple W J (R a) (f a) Q) :
    Triple W J P (p >>= f) Q := by
  change Triple W J P (p.bind f) Q
  induction hp with
  | done hQ => exact (hf _).pre fun s hs => (hQ s hs).2
  | call R hR hJ hact hnext ih => exact .call R hR hJ hact fun r => ih r hf

/-- **A call**: whatever its answer, what holds afterwards has to withstand what else happens. -/
theorem triple_perform {i : ι} {R : ρ → σ → Prop} (hR : ∀ r, W.Stable (R r))
    (hJ : ∀ s, P s → J s) (hRJ : ∀ r s, R r s → J s)
    (hact : ∀ s r t, P s → W.act s i r = some t → R r t) : Triple W J P (perform i) R :=
  .call R hR hJ hact fun r => .done fun s hs => ⟨hRJ r s hs, hs⟩

theorem Triple.post {p : Script ι ρ α} {Q Q' : α → σ → Prop} (h : Triple W J P p Q)
    (hQ : ∀ a s, Q a s → Q' a s) : Triple W J P p Q' := by
  induction h with
  | done hdone => exact .done fun s hs => ⟨(hdone s hs).1, hQ _ s (hdone s hs).2⟩
  | call R hR hJ hact hnext ih => exact .call R hR hJ hact fun r => ih r hQ

/-! ### Programs that may fail

The same for programs that give up half way, with a condition of its own for that case. -/

/-- What a program leads to that may fail: `E` where it does. -/
def orElse (Q : α → σ → Prop) (E : σ → Prop) : Option α → σ → Prop
  | some a => Q a
  | none => E

section Failing

variable {E : σ → Prop}

theorem tripleT_pure {a : α} {Q : α → σ → Prop} (hQ : ∀ s, P s → J s ∧ Q a s) :
    Triple W J P (pure a : OptionT (Script ι ρ) α).run (orElse Q E) :=
  .done hQ

theorem tripleT_failure {Q : α → σ → Prop} (hE : ∀ s, P s → J s ∧ E s) :
    Triple W J P (failure : OptionT (Script ι ρ) α).run (orElse Q E) :=
  .done hE

theorem tripleT_lift {p : Script ι ρ α} {Q : α → σ → Prop} (hp : Triple W J P p Q)
    (hQ : ∀ a s, Q a s → J s) :
    Triple W J P (OptionT.lift p : OptionT (Script ι ρ) α).run (orElse Q E) :=
  triple_bind hp fun a => triple_pure fun s hs => ⟨hQ a s hs, hs⟩

/-- **One program after another**, the second where the first did not fail. A failure of either
leaves what it is to leave. -/
theorem tripleT_bind {p : OptionT (Script ι ρ) α} {f : α → OptionT (Script ι ρ) β}
    {R : α → σ → Prop} {Q : β → σ → Prop} (hE : ∀ s, E s → J s)
    (hp : Triple W J P p.run (orElse R E)) (hf : ∀ a, Triple W J (R a) (f a).run (orElse Q E)) :
    Triple W J P (p >>= f).run (orElse Q E) := by
  refine triple_bind hp fun o => ?_
  cases o with
  | some a => exact hf a
  | none => exact triple_pure fun s hs => ⟨hE s hs, hs⟩

end Failing

end Script

/-! ## A program in its world

From triples about programs to invariants of the machine that they make with their world. -/

/-- What happens next: the program's call is answered, something else goes on, or the program
that is done is given another. -/
inductive Happening (ρ : Type u) (ε : Type v) (κ : Type w) where
  | answer (r : ρ)
  | other (e : ε)
  | enter (k : κ)

namespace World

variable {σ : Type u} {ι : Type v} {ρ : Type w} {ε : Type x} {κ : Type y} {W : World σ ι ρ ε}
  {body : κ → Script ι ρ Unit} {init : σ × Script ι ρ Unit → Prop} {J P : σ → Prop}

/-- A program and its world as one machine, where the world moves between the calls. -/
def threaded (W : World σ ι ρ ε) (body : κ → Script ι ρ Unit)
    (init : σ × Script ι ρ Unit → Prop) : Machine (σ × Script ι ρ Unit) (Happening ρ ε κ) where
  init := init
  step
    | (s, .call i next), .answer r => (W.act s i r).map fun t => (t, next r)
    | (_, .done _), .answer _ => none
    | (s, p), .other e => (W.env s e).map fun t => (t, p)
    | (s, .done _), .enter k => some (s, body k)
    | (_, .call _ _), .enter _ => none

/-- **What the programs keep** at every call holds in every state, and what they lead to
wherever one is done. -/
theorem always_of_triple {Q : σ → Prop}
    (hinit : ∀ s p, init (s, p) → ∃ P, W.Stable P ∧ P s ∧ Script.Triple W J P p fun _ => Q)
    (hbody : ∀ k, Script.Triple W J Q (body k) fun _ => Q) (hQ : W.Stable Q) :
    (W.threaded body init).Always fun c => J c.1 ∧ ∀ a, c.2 = .done a → Q c.1 := by
  refine Machine.Always.mono
    (P := fun c => ∃ P, W.Stable P ∧ P c.1 ∧ Script.Triple W J P c.2 fun _ => Q) ?_ ?_
  · refine Machine.always_of_step (fun c hc => hinit c.1 c.2 hc) ?_
    rintro ⟨s, p⟩ turn c ⟨P, hstable, hP, htriple⟩ hstep
    cases turn with
    | answer r =>
      cases htriple with
      | done hdone => cases hstep
      | call R hR hJ hact hnext =>
        obtain ⟨t, ht, rfl⟩ := Option.map_eq_some_iff.mp hstep
        exact ⟨R r, hR r, hact s r t hP ht, hnext r⟩
    | other e =>
      have hstep : (W.env s e).map (fun t => (t, p)) = some c := by
        cases p <;> exact hstep
      obtain ⟨t, ht, rfl⟩ := Option.map_eq_some_iff.mp hstep
      exact ⟨P, hstable, hstable s e t ht hP, htriple⟩
    | enter k =>
      cases htriple with
      | call R hR hJ hact hnext => cases hstep
      | done hdone =>
        obtain rfl := Option.some.inj hstep
        exact ⟨Q, hQ, (hdone s hP).2, hbody k⟩
  · rintro ⟨s, p⟩ ⟨P, -, hP, htriple⟩
    cases htriple with
    | done hdone => exact ⟨(hdone s hP).1, fun _ _ => (hdone s hP).2⟩
    | call R hR hJ hact hnext =>
      refine ⟨hJ s hP, fun a ha => ?_⟩
      cases ha

end World

end Wari.Lib
