import Mathlib.Data.List.Induction
import Mathlib.Logic.Function.Basic

/-!
# Tables of tables

A trie laid out in a store: a table at each address, whose slots are empty, hold a leaf, or
branch to another table. Where no table is shared, a leaf is set in one place
(`leafAt_set_leaf`), and a branch to a fresh empty table changes no leaf
(`leafAt_set_branch`).
-/

namespace Wari.Lib

universe u v w

/-- A slot of a table: nothing, another table, or a leaf. -/
inductive Slot (α : Type u) (β : Type v) where
  | empty
  | branch (child : α)
  | leaf (x : β)

/-- A store of tables: at each address and index, a slot. -/
abbrev Tables (α : Type u) (ι : Type w) (β : Type v) := α → ι → Slot α β

namespace Tables

variable {α : Type u} {ι : Type w} {β : Type v}

/-- The table that a slot branches to, if it does. -/
def child? : Slot α β → Option α
  | .branch b => some b
  | _ => none

/-- The leaf in a slot, if there is one. -/
def leaf? : Slot α β → Option β
  | .leaf x => some x
  | _ => none

/-- The table at the end of a path. -/
def tableAt (h : Tables α ι β) (root : α) : List ι → Option α
  | [] => some root
  | i :: is => (child? (h root i)).bind fun b => tableAt h b is

/-- The leaf at index `i` of the table at the end of a path. -/
def leafAt (h : Tables α ι β) (root : α) (path : List ι) (i : ι) : Option β :=
  (h.tableAt root path).bind fun t => leaf? (h t i)

/-- No table is at the end of two paths. -/
def Unshared (h : Tables α ι β) (root : α) : Prop :=
  ∀ p q t, h.tableAt root p = some t → h.tableAt root q = some t → p = q

variable {h h' : Tables α ι β} {root a b : α} {p : List ι} {i : ι}

@[simp] theorem tableAt_nil : h.tableAt root [] = some root := rfl

theorem tableAt_cons (is : List ι) :
    h.tableAt root (i :: is) = (child? (h root i)).bind fun b => h.tableAt b is := rfl

/-- One step more along a path leads from the table there to one of its children. -/
theorem tableAt_snoc (q : List ι) (j : ι) :
    h.tableAt root (q ++ [j]) = (h.tableAt root q).bind fun t => child? (h t j) := by
  induction q generalizing root with
  | nil =>
    rw [List.nil_append, tableAt_cons, tableAt_nil, Option.bind_some]
    rcases child? (h root j) <;> rfl
  | cons i is ih =>
    rw [List.cons_append, tableAt_cons, tableAt_cons]
    rcases child? (h root i) with _ | b
    · rfl
    · exact ih

/-- Nothing is at the end of a path through an empty slot. -/
theorem tableAt_of_empty (hp : h.tableAt root p = some a) (hold : h a i = .empty) :
    h.tableAt root (p ++ [i]) = none := by
  rw [tableAt_snoc, hp, Option.bind_some, hold]
  rfl

/-- What is at a path depends only on the tables along it. -/
theorem tableAt_congr (hsame : ∀ q t, h.tableAt root q = some t → h' t = h t) (q : List ι) :
    h'.tableAt root q = h.tableAt root q := by
  induction q using List.reverseRecOn with
  | nil => rfl
  | append_singleton q j ih =>
    rw [tableAt_snoc, tableAt_snoc, ih]
    rcases ht : h.tableAt root q with _ | t
    · rfl
    · rw [Option.bind_some, Option.bind_some, hsame q t ht]

theorem leafAt_congr (hsame : ∀ q t, h.tableAt root q = some t → h' t = h t) (q : List ι)
    (j : ι) : h'.leafAt root q j = h.leafAt root q j := by
  rw [leafAt, leafAt, tableAt_congr hsame]
  rcases ht : h.tableAt root q with _ | t
  · rfl
  · rw [Option.bind_some, Option.bind_some, hsame q t ht]

theorem Unshared.congr (hun : h.Unshared root)
    (hsame : ∀ q t, h.tableAt root q = some t → h' t = h t) : h'.Unshared root := by
  intro p q t hp hq
  rw [tableAt_congr hsame] at hp hq
  exact hun p q t hp hq

section Set

variable [DecidableEq α] [DecidableEq ι]

/-- The store with one slot of one table set. -/
def set (h : Tables α ι β) (a : α) (i : ι) (s : Slot α β) : Tables α ι β :=
  Function.update h a (Function.update (h a) i s)

theorem set_apply (s : Slot α β) (t : α) (j : ι) :
    h.set a i s t j = if t = a ∧ j = i then s else h t j := by
  rw [set, Function.update_apply]
  by_cases ht : t = a
  · subst ht
    rw [if_pos rfl, Function.update_apply]
    by_cases hj : j = i <;> simp [hj]
  · rw [if_neg ht, if_neg fun hc => ht hc.1]

variable {x : β}

/-- A leaf that replaces no branch leaves the tables where they are. -/
theorem tableAt_set_leaf (hold : child? (h a i) = none) (q : List ι) :
    (h.set a i (.leaf x)).tableAt root q = h.tableAt root q := by
  induction q using List.reverseRecOn with
  | nil => rfl
  | append_singleton q j ih =>
    rw [tableAt_snoc, tableAt_snoc, ih]
    congr 1
    funext t
    rw [set_apply]
    split
    · rename_i hc
      rw [hc.1, hc.2, hold]
      rfl
    · rfl

/-- **A leaf is set in one place**, and all other paths find what they found, as no table is
shared. -/
theorem leafAt_set_leaf (hun : h.Unshared root)
    (hp : h.tableAt root p = some a) (hold : child? (h a i) = none) (q : List ι) (j : ι) :
    (h.set a i (.leaf x)).leafAt root q j =
      if q = p ∧ j = i then some x else h.leafAt root q j := by
  rw [leafAt, leafAt, tableAt_set_leaf hold]
  by_cases hc : q = p ∧ j = i
  · obtain ⟨rfl, rfl⟩ := hc
    rw [if_pos ⟨rfl, rfl⟩, hp, Option.bind_some, set_apply, if_pos ⟨rfl, rfl⟩]
    rfl
  · rw [if_neg hc]
    rcases ht : h.tableAt root q with _ | t
    · rfl
    · rw [Option.bind_some, Option.bind_some, set_apply, if_neg]
      rintro ⟨rfl, rfl⟩
      exact hc ⟨hun q p t ht hp, rfl⟩

theorem Unshared.set_leaf (hun : h.Unshared root) (hold : child? (h a i) = none) :
    (h.set a i (.leaf x)).Unshared root := by
  intro p q t hp hq
  rw [tableAt_set_leaf hold] at hp hq
  exact hun p q t hp hq

/-! ## A fresh table

A branch to a table that nothing leads to yet adds one path, and changes no other. -/

/-- **A fresh table** is at the end of one path, and of no other. -/
theorem tableAt_set_branch (hun : h.Unshared root)
    (hp : h.tableAt root p = some a) (hold : h a i = .empty)
    (hfresh : ∀ q, h.tableAt root q ≠ some b) (hempty : ∀ j, h b j = .empty) (q : List ι) :
    (h.set a i (.branch b)).tableAt root q =
      if q = p ++ [i] then some b else h.tableAt root q := by
  induction q using List.reverseRecOn with
  | nil => rw [if_neg (by simp)]; rfl
  | append_singleton q j ih =>
    rw [tableAt_snoc, ih]
    by_cases hq : q = p ++ [i]
    · -- past the fresh table there is nothing
      have hb : b ≠ a := by
        rintro rfl
        exact hfresh p hp
      have hlong : ¬ q ++ [j] = p ++ [i] := by
        intro heq
        have hlen := congrArg List.length heq
        rw [hq] at hlen
        simp at hlen
      rw [if_pos hq, if_neg hlong, Option.bind_some, set_apply, if_neg fun hc => hb hc.1,
        hempty j, tableAt_snoc, hq, tableAt_of_empty hp hold]
      rfl
    · rw [if_neg hq, tableAt_snoc]
      rcases ht : h.tableAt root q with _ | t
      · rw [if_neg]
        · rfl
        · intro heq
          rw [(List.append_inj' heq rfl).1, hp] at ht
          cases ht
      · rw [Option.bind_some, Option.bind_some, set_apply]
        by_cases hc : t = a ∧ j = i
        · obtain ⟨rfl, rfl⟩ := hc
          rw [if_pos ⟨rfl, rfl⟩, hun q p t ht hp, if_pos rfl]
          rfl
        · rw [if_neg hc, if_neg]
          intro heq
          obtain ⟨rfl, hj⟩ := List.append_inj' heq rfl
          rw [hp] at ht
          exact hc ⟨(Option.some.inj ht).symm, List.head_eq_of_cons_eq hj⟩

/-- And a branch to an empty table changes no leaf. -/
theorem leafAt_set_branch (hun : h.Unshared root)
    (hp : h.tableAt root p = some a) (hold : h a i = .empty)
    (hfresh : ∀ q, h.tableAt root q ≠ some b) (hempty : ∀ j, h b j = .empty) (q : List ι)
    (j : ι) : (h.set a i (.branch b)).leafAt root q j = h.leafAt root q j := by
  rw [leafAt, leafAt, tableAt_set_branch hun hp hold hfresh hempty]
  by_cases hq : q = p ++ [i]
  · have hb : b ≠ a := by
      rintro rfl
      exact hfresh p hp
    rw [if_pos hq, hq, tableAt_of_empty hp hold, Option.bind_some, set_apply,
      if_neg fun hc => hb hc.1, hempty j]
    rfl
  · rw [if_neg hq]
    rcases ht : h.tableAt root q with _ | t
    · rfl
    · rw [Option.bind_some, Option.bind_some, set_apply]
      split
      · rename_i hc
        rw [hc.1, hc.2, hold]
        rfl
      · rfl

theorem Unshared.set_branch (hun : h.Unshared root)
    (hp : h.tableAt root p = some a) (hold : h a i = .empty)
    (hfresh : ∀ q, h.tableAt root q ≠ some b) (hempty : ∀ j, h b j = .empty) :
    (h.set a i (.branch b)).Unshared root := by
  intro q r t hq hr
  rw [tableAt_set_branch hun hp hold hfresh hempty] at hq hr
  split at hq <;> split at hr
  · rename_i h₁ h₂
    rw [h₁, h₂]
  · obtain rfl := Option.some.inj hq
    exact absurd hr (hfresh r)
  · obtain rfl := Option.some.inj hr
    exact absurd hq (hfresh q)
  · exact hun q r t hq hr

end Set

end Tables

end Wari.Lib
