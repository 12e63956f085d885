import Mathlib.Logic.Basic

/-!
# Servers

A server answers one request after another: `step s i` is the reply to request `i` in state
`s`, and the state after it. A server *refines* another where a relation of their states
holds at the start, and every request gets the same reply from both and keeps the relation;
then whole sequences of requests get the same replies.
-/

namespace Wari.Lib

universe u v w x

/-- A server over states `σ`, requests `ι` and replies `ο`. -/
def Server (σ : Type u) (ι : Type v) (ο : Type w) : Type _ := σ → ι → ο × σ

namespace Server

variable {σ : Type u} {τ : Type x} {ι : Type v} {ο : Type w}

/-- The replies to a sequence of requests, and the state after it. -/
def serve (f : Server σ ι ο) : σ → List ι → List ο × σ
  | s, [] => ([], s)
  | s, i :: is => ((f s i).1 :: (serve f (f s i).2 is).1, (serve f (f s i).2 is).2)

/-- One sequence of requests after the other is one sequence. -/
theorem serve_append (f : Server σ ι ο) (s : σ) (is js : List ι) :
    f.serve s (is ++ js) = ((f.serve s is).1 ++ (f.serve (f.serve s is).2 js).1,
      (f.serve (f.serve s is).2 js).2) := by
  induction is generalizing s with
  | nil => rfl
  | cons i is ih =>
    rw [List.cons_append, serve, ih]
    rfl

/-- **History rule.** What a step does to a part of the state is told by the request and the
reply; then that part is told by the requests and replies so far. -/
theorem serve_fold (f : Server σ ι ο) {part : σ → τ} {g : τ → ι × ο → τ}
    (hstep : ∀ s i, part (f s i).2 = g (part s) (i, (f s i).1)) (s : σ) (is : List ι) :
    part (f.serve s is).2 = (is.zip (f.serve s is).1).foldl g (part s) := by
  induction is generalizing s with
  | nil => rfl
  | cons i is ih =>
    rw [serve, List.zip_cons_cons, List.foldl_cons, ← hstep]
    exact ih _

/-- **Refinement rule.** Servers that answer alike, from related states to related states, answer
alike for ever. -/
theorem serve_refines (f : Server σ ι ο) (g : Server τ ι ο) {R : σ → τ → Prop}
    (hstep : ∀ s t i, R s t → (f s i).1 = (g t i).1 ∧ R (f s i).2 (g t i).2)
    {s : σ} {t : τ} (h : R s t) (is : List ι) :
    (f.serve s is).1 = (g.serve t is).1 ∧ R (f.serve s is).2 (g.serve t is).2 := by
  induction is generalizing s t with
  | nil => exact ⟨rfl, h⟩
  | cons i is ih =>
    obtain ⟨hreply, hnext⟩ := hstep s t i h
    obtain ⟨hreplies, hend⟩ := ih hnext
    exact ⟨congrArg₂ List.cons hreply hreplies, hend⟩

end Server

end Wari.Lib
