import Mathlib.Data.List.DropRight
import Mathlib.Data.List.TakeWhile

/-!
# Text and slices of it

A parser that copies nothing returns slices: where in its text a piece starts, and the bytes
of the piece. What it still has to read is a suffix of the text, so a position is told by
what is left.
-/

namespace Wari.Lib

/-- A text, as a list of its bytes. -/
abbrev Bytes : Type := List (BitVec 8)

/-- A piece of a text, with the place where it begins there. -/
structure Slice where
  start : ℕ
  bytes : Bytes
  deriving DecidableEq, Repr

/-- The piece, of a text that starts `n` bytes earlier. -/
def Slice.shift (n : ℕ) (s : Slice) : Slice := ⟨n + s.start, s.bytes⟩

/-- The bytes of a text of ASCII characters. -/
def ascii (cs : List Char) : Bytes := cs.map fun c => BitVec.ofNat 8 c.toNat

/-! ## Skipping

What a skip over some kind of character passes over, and where it stops. -/

section Skip

variable {α : Type*} {p : α → Bool} {w s r : List α} {c : α}

/-- A skip passes over what it is to pass over, and stops before the first other character. -/
theorem dropWhile_append (hw : ∀ x ∈ w, p x = true) (hc : p c = false) :
    (w ++ c :: r).dropWhile p = c :: r := by
  induction w with
  | nil => exact List.dropWhile_cons_of_neg (by simp [hc])
  | cons x w ih =>
    rw [List.cons_append, List.dropWhile_cons_of_pos (hw x List.mem_cons_self)]
    exact ih fun y hy => hw y (List.mem_cons_of_mem _ hy)

theorem dropWhile_all (hw : ∀ x ∈ w, p x = true) : w.dropWhile p = [] :=
  List.dropWhile_eq_nil_iff.mpr hw

/-- What a skip passed over, and that all of it was to be skipped. -/
theorem dropWhile_split (s : List α) : ∃ w, s = w ++ s.dropWhile p ∧ ∀ x ∈ w, p x = true :=
  ⟨s.takeWhile p, (List.takeWhile_append_dropWhile).symm, fun _ hx => List.mem_takeWhile_imp hx⟩

/-- Where a skip stopped there is something that is not to be skipped. -/
theorem dropWhile_head (h : s.dropWhile p = c :: r) : p c = false := by
  have hne : s.dropWhile p ≠ [] := by simp [h]
  have hhead := List.head_dropWhile_not p hne
  simpa [h] using hhead

/-- What is left when both ends are trimmed. -/
structure Trimmed (p : α → Bool) (w s w' : List α) : Prop where
  lead : ∀ x ∈ w, p x = true
  trail : ∀ x ∈ w', p x = true
  head : ∀ x, s.head? = some x → p x = false
  last : ∀ x, s.getLast? = some x → p x = false
  /-- where nothing is left, all of it is at the front -/
  empty : s = [] → w' = []

namespace Trimmed

variable {w' : List α}

theorem dropWhile_eq (h : Trimmed p w s w') : (w ++ (s ++ w')).dropWhile p = s ++ w' := by
  rcases s with _ | ⟨x, s⟩
  · rw [h.empty rfl, List.append_nil, List.append_nil]
    exact dropWhile_all h.lead
  · exact dropWhile_append h.lead (h.head x rfl)

theorem takeWhile_eq (h : Trimmed p w s w') : (w ++ (s ++ w')).takeWhile p = w := by
  have hsplit := List.takeWhile_append_dropWhile (p := p) (l := w ++ (s ++ w'))
  rw [h.dropWhile_eq] at hsplit
  exact List.append_cancel_right hsplit

/-- **Trimming both ends** leaves what is between them, if it begins and ends with something to
keep. -/
theorem trim_eq (h : Trimmed p w s w') :
    ((w ++ (s ++ w')).dropWhile p).rdropWhile p = s := by
  rw [h.dropWhile_eq, List.rdropWhile, List.reverse_append]
  have htrail : ∀ x ∈ w'.reverse, p x = true := fun x hx => h.trail x (List.mem_reverse.mp hx)
  rcases List.eq_nil_or_concat s with rfl | ⟨s, x, rfl⟩
  · rw [h.empty rfl]
    rfl
  · rw [List.concat_eq_append, List.reverse_append, List.reverse_singleton,
      List.singleton_append, dropWhile_append htrail (h.last x (by simp))]
    simp

end Trimmed

/-- Every text has ends that are trimmed off. -/
theorem exists_trimmed (p : α → Bool) (t : List α) :
    ∃ w s w', t = w ++ (s ++ w') ∧ Trimmed p w s w' := by
  have hsplit : t.dropWhile p =
      (t.dropWhile p).rdropWhile p ++ (t.dropWhile p).rtakeWhile p :=
    List.rdropWhile_append_rtakeWhile.symm
  refine ⟨t.takeWhile p, (t.dropWhile p).rdropWhile p, (t.dropWhile p).rtakeWhile p, ?_,
    fun x hx => List.mem_takeWhile_imp hx, fun x hx => List.mem_rtakeWhile_imp hx, fun x hx => ?_,
    fun x hx => ?_, fun hnil => ?_⟩
  · rw [← hsplit, List.takeWhile_append_dropWhile]
  · rcases hs : (t.dropWhile p).rdropWhile p with _ | ⟨y, s⟩
    · rw [hs] at hx
      cases hx
    · rw [hs] at hx hsplit
      cases hx
      exact dropWhile_head hsplit
  · have hne : (t.dropWhile p).rdropWhile p ≠ [] := by
      intro hnil
      rw [hnil] at hx
      cases hx
    have hlast := List.rdropWhile_last_not p _ hne
    rw [List.getLast?_eq_some_getLast hne, Option.some.injEq] at hx
    rwa [hx, Bool.not_eq_true] at hlast
  · have hall := List.rdropWhile_eq_nil_iff.mp hnil
    rcases hd : t.dropWhile p with _ | ⟨y, r⟩
    · rw [List.rtakeWhile]
      rfl
    · rw [hd] at hall
      have hy := dropWhile_head hd
      rw [hall y List.mem_cons_self] at hy
      cases hy

end Skip

end Wari.Lib
