import Mathlib.Data.List.Basic
import Mathlib.Tactic.Common

/-!
# Lists of entries under keys

A list of entries read into a map keeps the last entry of each key. As a set a list has every
entry. Two lists may give one map and be two sets, or be one set and give two maps: only where
a list has one key with two values.
-/

namespace Wari.Lib.Keyed

variable {κ ν μ : Type}

/-! ## Lists without gaps

Lists in which each entry may lack its value, and what it means that none does. -/

/-- Every entry of the list has its value, and the values are these. -/
def Known (l : List (κ × Option ν)) (l' : List (κ × ν)) : Prop :=
  l = l'.map fun e => (e.1, some e.2)

theorem known_nil {l' : List (κ × ν)} : Known [] l' ↔ l' = [] := by
  simp [Known]

theorem known_cons_some {k : κ} {v : ν} {l : List (κ × Option ν)} {l' : List (κ × ν)} :
    Known ((k, some v) :: l) l' ↔ ∃ l'', l' = (k, v) :: l'' ∧ Known l l'' := by
  cases l' with
  | nil => simp [Known]
  | cons e l' =>
    obtain ⟨k', v'⟩ := e
    simp only [Known, List.map_cons, List.cons.injEq, Prod.mk.injEq, Option.some.injEq]
    constructor
    · rintro ⟨⟨rfl, rfl⟩, h⟩
      exact ⟨l', ⟨⟨rfl, rfl⟩, rfl⟩, h⟩
    · rintro ⟨l'', ⟨⟨rfl, rfl⟩, rfl⟩, h⟩
      exact ⟨⟨rfl, rfl⟩, h⟩

theorem not_known_cons_none {k : κ} {l : List (κ × Option ν)} {l' : List (κ × ν)} :
    ¬ Known ((k, none) :: l) l' := by
  cases l' <;> simp [Known]

/-- A loop over entries takes one that has its value, and goes on. -/
theorem exists_known_cons_some {k : κ} {v : ν} {l : List (κ × Option ν)}
    {p : List (κ × ν) → Prop} :
    (∃ l', Known ((k, some v) :: l) l' ∧ p l') ↔ ∃ l', Known l l' ∧ p ((k, v) :: l') := by
  simp only [known_cons_some]
  constructor
  · rintro ⟨_, ⟨l', rfl, h⟩, hp⟩
    exact ⟨l', h, hp⟩
  · rintro ⟨l', h, hp⟩
    exact ⟨_, ⟨l', rfl, h⟩, hp⟩

/-- Where all values are there the list is known, and only there. -/
theorem exists_known {l : List (κ × Option ν)} :
    (∃ l', Known l l') ↔ ∀ e ∈ l, e.2.isSome := by
  induction l with
  | nil => simp [known_nil]
  | cons e l ih =>
    obtain ⟨k, _ | v⟩ := e
    · simp [not_known_cons_none]
    · simp only [known_cons_some, List.forall_mem_cons, Option.isSome_some, true_and, ← ih]
      constructor
      · rintro ⟨l', l'', -, h⟩
        exact ⟨l'', h⟩
      · rintro ⟨l', h⟩
        exact ⟨_, l', rfl, h⟩

section Last

variable [DecidableEq κ]

/-- The value of the last entry of a key. -/
def lastOf : List (κ × ν) → κ → Option ν
  | [], _ => none
  | e :: l, k => (lastOf l k).or (if e.1 = k then some e.2 else none)

section Map

variable [Ord κ]

/-- The entries, inserted into a map one after the other. -/
def insertAll (m : Std.TreeMap κ ν) (l : List (κ × ν)) : Std.TreeMap κ ν :=
  l.foldl (fun m e => m.insert e.1 e.2) m

/-- **What a map keeps** of the entries is the last one for each key. -/
theorem getElem?_insertAll [Std.TransOrd κ] [Std.LawfulEqOrd κ] (l : List (κ × ν))
    (m : Std.TreeMap κ ν) (k : κ) : (insertAll m l)[k]? = (lastOf l k).or m[k]? := by
  induction l generalizing m with
  | nil => rfl
  | cons e l ih =>
    rw [insertAll, List.foldl_cons]
    refine (ih _).trans ?_
    rw [lastOf, Option.or_assoc, Std.TreeMap.getElem?_insert]
    by_cases he : e.1 = k
    · rw [if_pos he, if_pos (Std.LawfulEqCmp.compare_eq_iff_eq.mpr he), Option.some_or]
    · rw [if_neg he, if_neg fun h => he (Std.LawfulEqCmp.compare_eq_iff_eq.mp h), Option.none_or]

end Map

theorem lastOf_mem {l : List (κ × ν)} {k : κ} {v : ν} (h : lastOf l k = some v) : (k, v) ∈ l := by
  induction l with
  | nil => cases h
  | cons e l ih =>
    rw [lastOf, Option.or_eq_some_iff] at h
    rcases h with h | ⟨-, h⟩
    · exact List.mem_cons_of_mem _ (ih h)
    · obtain ⟨rfl, hv⟩ := Option.ite_none_right_eq_some.mp h
      rw [← Option.some.inj hv]
      exact List.mem_cons_self

theorem lastOf_isSome {l : List (κ × ν)} {e : κ × ν} (h : e ∈ l) : ∃ v, lastOf l e.1 = some v := by
  induction l with
  | nil => cases h
  | cons e' l ih =>
    rw [lastOf]
    rcases hl : lastOf l e.1 with _ | v
    · rcases List.mem_cons.mp h with rfl | h
      · exact ⟨e.2, by simp⟩
      · obtain ⟨v, hv⟩ := ih h
        rw [hl] at hv
        cases hv
    · exact ⟨v, Option.some_or⟩

theorem lastOf_map (f : ν → μ) (l : List (κ × ν)) (k : κ) :
    lastOf (l.map fun e => (e.1, f e.2)) k = (lastOf l k).map f := by
  induction l with
  | nil => rfl
  | cons e l ih =>
    rw [List.map_cons, lastOf, lastOf, ih, Option.map_or]
    by_cases he : e.1 = k <;> simp [he]

end Last

/-! ## Entries that a map does not show

An entry that a later one of its key replaces is in the list, and not in the map. -/

section Sets

variable {l l' : List (κ × ν)} {e : κ × ν}

/-- Later in the list is an entry of the same key with another value. -/
def Shadowed (l : List (κ × ν)) (e : κ × ν) : Prop :=
  ∃ front back, l = front ++ e :: back ∧ ∃ v, (e.1, v) ∈ back ∧ v ≠ e.2

theorem Shadowed.mem (h : Shadowed l e) : e ∈ l := by
  obtain ⟨front, back, rfl, -⟩ := h
  simp

theorem Shadowed.cons (h : Shadowed l e) (e' : κ × ν) : Shadowed (e' :: l) e := by
  obtain ⟨front, back, rfl, hv⟩ := h
  exact ⟨e' :: front, back, rfl, hv⟩

/-- The two lists have the same entries, in whatever order and however often. -/
def SameEntries (l l' : List (κ × ν)) : Prop := ∀ e, e ∈ l ↔ e ∈ l'

/-- An entry is shadowed in one list, and the other has no such entry. -/
def Hides (l l' : List (κ × ν)) : Prop := ∃ e, Shadowed l e ∧ e ∉ l'

/-- No key has two values in the list. -/
def Unambiguous (l : List (κ × ν)) : Prop := ∀ e ∈ l, ∀ e' ∈ l, e.1 = e'.1 → e.2 = e'.2

theorem Unambiguous.not_shadowed (h : Unambiguous l) (e : κ × ν) : ¬ Shadowed l e := by
  rintro ⟨front, back, rfl, v, hv, hne⟩
  refine hne (h (e.1, v) ?_ e ?_ rfl)
  · simp [hv]
  · simp

theorem Unambiguous.not_hides (h : Unambiguous l) : ¬ Hides l l' := by
  rintro ⟨e, he, -⟩
  exact h.not_shadowed e he

theorem Unambiguous.of_same (h : Unambiguous l) (hsame : SameEntries l l') : Unambiguous l' :=
  fun e he e' he' => h e ((hsame e).mpr he) e' ((hsame e').mpr he')

end Sets

section Compare

variable [DecidableEq κ] {l l' : List (κ × ν)}

/-- **An entry is the last of its key or shadowed** by a later one. -/
theorem last_or_shadowed {e : κ × ν} (h : e ∈ l) :
    lastOf l e.1 = some e.2 ∨ Shadowed l e := by
  induction l with
  | nil => cases h
  | cons e' l ih =>
    by_cases hl : e ∈ l
    · rcases ih hl with ih | ih
      · exact .inl (by simp [lastOf, ih])
      · exact .inr (ih.cons e')
    · obtain rfl : e = e' := (List.mem_cons.mp h).resolve_right hl
      rcases hlast : lastOf l e.1 with _ | v
      · exact .inl (by simp [lastOf, hlast])
      · refine .inr ⟨[], l, rfl, v, lastOf_mem hlast, fun hv => hl ?_⟩
        rw [show e = (e.1, v) by rw [hv]]
        exact lastOf_mem hlast

/-- The two lists give the same map when they are inserted. -/
def SameLast (l l' : List (κ × ν)) : Prop := ∀ k, lastOf l k = lastOf l' k

theorem SameLast.symm (h : SameLast l l') : SameLast l' l := fun k => (h k).symm

/-- An entry of one list that the other does not have is shadowed. -/
theorem SameLast.mem (h : SameLast l l') {e : κ × ν} (he : e ∈ l) :
    e ∈ l' ∨ Shadowed l e := by
  rcases last_or_shadowed he with hlast | hsh
  · rw [h] at hlast
    exact .inl (lastOf_mem hlast)
  · exact .inr hsh

/-- **Lists that give the same map** have the same entries iff neither hides one. -/
theorem SameLast.sameEntries_iff (h : SameLast l l') :
    SameEntries l l' ↔ ¬ Hides l l' ∧ ¬ Hides l' l := by
  constructor
  · intro hsame
    refine ⟨?_, ?_⟩
    · rintro ⟨e, he, hnot⟩
      exact hnot ((hsame e).mp he.mem)
    · rintro ⟨e, he, hnot⟩
      exact hnot ((hsame e).mpr he.mem)
  · rintro ⟨hl, hl'⟩ e
    constructor
    · intro he
      rcases h.mem he with hmem | hsh
      · exact hmem
      · exact by_contra fun hnot => hl ⟨e, hsh, hnot⟩
    · intro he
      rcases h.symm.mem he with hmem | hsh
      · exact hmem
      · exact by_contra fun hnot => hl' ⟨e, hsh, hnot⟩

/-- The last entry of a key, where there is no other. -/
theorem Unambiguous.lastOf_eq (h : Unambiguous l) {e : κ × ν} (he : e ∈ l) :
    lastOf l e.1 = some e.2 :=
  (last_or_shadowed he).resolve_right (h.not_shadowed e)

/-- **Without ambiguity** one set of entries is one map, whatever the order. -/
theorem SameEntries.sameLast (h : SameEntries l l') (hl : Unambiguous l) : SameLast l l' := by
  intro k
  rcases hk : lastOf l k with _ | v
  · rcases hk' : lastOf l' k with _ | v'
    · rfl
    · obtain ⟨v, hv⟩ := lastOf_isSome ((h (k, v')).mpr (lastOf_mem hk'))
      rw [hk] at hv
      cases hv
  · exact ((hl.of_same h).lastOf_eq ((h (k, v)).mp (lastOf_mem hk))).symm

end Compare

end Wari.Lib.Keyed
