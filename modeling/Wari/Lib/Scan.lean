import Mathlib.Data.Fintype.Card
import Mathlib.Logic.Relation

/-!
# Scanning to a fixpoint

A forest is given by a partial parent map `par`. Starting from a set `S`, a
*pass* looks at every point of a list in order and adds those whose parent is
already in; passes repeat until one adds nothing. Whatever the order of the
list, and however children and parents lie in it, the outcome is the set of
points from which following `par` leads into `S` (`mem_scan_iff`), and one pass
more than there are points is enough (`scan_isSome`).
-/

namespace Wari.Lib

universe u

variable {α : Type u}

/-- Following `par` from `x` leads to `t` (in zero or more steps). -/
def Descends (par : α → Option α) (x t : α) : Prop :=
  Relation.ReflTransGen (fun a b => par a = some b) x t

variable [DecidableEq α] (par : α → Option α)

/-- Look at one point: it joins the set where its parent is in. The flag
records that something joined. -/
def look (st : Finset α × Bool) (x : α) : Finset α × Bool :=
  if x ∈ st.1 then st
  else match par x with
    | none => st
    | some y => if y ∈ st.1 then (insert x st.1, true) else st

/-- One pass over the points, from a set and a lowered flag. -/
def pass (xs : List α) (S : Finset α) : Finset α × Bool :=
  xs.foldl (look par) (S, false)

/-- Passes until one leaves the flag down; `none` where `fuel` passes were not
enough. -/
def scan (xs : List α) : ℕ → Finset α → Option (Finset α)
  | 0, _ => none
  | fuel + 1, S => if (pass par xs S).2 then scan xs fuel (pass par xs S).1 else some S

variable {par}

/-! ## One look

What looking at one point does: it is added if its parent is in the set and it is not. -/

/-- What a look can do: nothing, or add its point under a parent. -/
theorem look_cases (par : α → Option α) (st : Finset α × Bool) (x : α) :
    look par st x = st ∧ (∀ y ∈ st.1, par x = some y → x ∈ st.1) ∨
      ∃ y ∈ st.1, par x = some y ∧ x ∉ st.1 ∧ look par st x = (insert x st.1, true) := by
  rw [look]
  by_cases hx : x ∈ st.1
  · rw [if_pos hx]
    exact .inl ⟨rfl, fun _ _ _ => hx⟩
  · rw [if_neg hx]
    rcases hp : par x with _ | y
    · exact .inl ⟨rfl, fun _ _ h => by cases h⟩
    · by_cases hy : y ∈ st.1
      · exact .inr ⟨y, hy, rfl, hx, if_pos hy⟩
      · refine .inl ⟨if_neg hy, fun z hz h => ?_⟩
        obtain rfl : y = z := Option.some.inj h
        exact absurd hz hy

theorem subset_look (st : Finset α × Bool) (x : α) : st.1 ⊆ (look par st x).1 := by
  rcases look_cases par st x with ⟨h, -⟩ | ⟨y, -, -, -, h⟩ <;> rw [h]
  exact Finset.subset_insert x st.1

/-! ## A run of looks

A pass over all points, which may add some, and raises a flag if it does. -/

theorem subset_looks (xs : List α) : ∀ st : Finset α × Bool, st.1 ⊆ (xs.foldl (look par) st).1 := by
  induction xs with
  | nil => intro st; exact Finset.Subset.refl _
  | cons x xs ih => intro st; exact (subset_look st x).trans (ih _)

/-- The flag, once raised, stays raised for the rest of the pass. -/
theorem looks_flag (xs : List α) :
    ∀ st : Finset α × Bool, st.2 = true → (xs.foldl (look par) st).2 = true := by
  induction xs with
  | nil => intro st h; exact h
  | cons x xs ih =>
    intro st h
    refine ih _ ?_
    rcases look_cases par st x with ⟨h', -⟩ | ⟨y, -, -, -, h'⟩ <;> rw [h']
    exact h

/-- A lowered flag at the end means that nothing joined, and that the set was
closed under children on the points looked at. -/
theorem looks_lowered (xs : List α) :
    ∀ st : Finset α × Bool, (xs.foldl (look par) st).2 = false →
      xs.foldl (look par) st = st ∧ ∀ x ∈ xs, ∀ y ∈ st.1, par x = some y → x ∈ st.1 := by
  induction xs with
  | nil => intro st _; exact ⟨rfl, fun x hx => absurd hx List.not_mem_nil⟩
  | cons x xs ih =>
    intro st h
    rcases look_cases par st x with ⟨hl, hc⟩ | ⟨y, -, -, -, hl⟩
    · rw [List.foldl_cons, hl] at h ⊢
      obtain ⟨hst, hclosed⟩ := ih st h
      refine ⟨hst, fun z hz => ?_⟩
      rcases List.mem_cons.mp hz with rfl | hz
      · exact hc
      · exact hclosed z hz
    · -- the look raised the flag, and it cannot have come down again
      rw [List.foldl_cons, hl, looks_flag xs _ rfl] at h
      cases h

/-- A raised flag means that the set grew. -/
theorem looks_raised (xs : List α) :
    ∀ st : Finset α × Bool, st.2 = false → (xs.foldl (look par) st).2 = true →
      st.1.card < (xs.foldl (look par) st).1.card := by
  induction xs with
  | nil =>
    intro st h h'
    rw [List.foldl_nil, h] at h'
    cases h'
  | cons x xs ih =>
    intro st h h'
    rw [List.foldl_cons] at h' ⊢
    rcases look_cases par st x with ⟨hl, -⟩ | ⟨y, -, -, hx, hl⟩
    · rw [hl] at h' ⊢
      exact ih st h h'
    · rw [hl]
      have hgrow : st.1.card < (insert x st.1).card := by
        rw [Finset.card_insert_of_notMem hx]
        exact Nat.lt_succ_self _
      exact hgrow.trans_le (Finset.card_le_card (subset_looks xs (insert x st.1, true)))

/-- Everything that joins descends from what was there. -/
theorem looks_sound (xs : List α) {S : Finset α} :
    ∀ st : Finset α × Bool, (∀ x ∈ st.1, ∃ t ∈ S, Descends par x t) →
      ∀ x ∈ (xs.foldl (look par) st).1, ∃ t ∈ S, Descends par x t := by
  induction xs with
  | nil => intro st h; exact h
  | cons x xs ih =>
    intro st h
    refine ih _ ?_
    rcases look_cases par st x with ⟨hl, -⟩ | ⟨y, hy, hp, -, hl⟩ <;> rw [hl]
    · exact h
    · intro z hz
      rcases Finset.mem_insert.mp hz with rfl | hz
      · obtain ⟨t, ht, hd⟩ := h y hy
        exact ⟨t, ht, .head hp hd⟩
      · exact h z hz

/-! ## The fixpoint

Passes until one adds nothing. By then the set is closed, and holds what descends from where it
began. -/

omit [DecidableEq α] in
/-- A set closed under children holds every descendant of its points. -/
theorem mem_of_descends {S : Finset α} (hclosed : ∀ x, ∀ y ∈ S, par x = some y → x ∈ S)
    {x t : α} (hd : Descends par x t) (ht : t ∈ S) : x ∈ S := by
  induction hd using Relation.ReflTransGen.head_induction_on with
  | refl => exact ht
  | head hp _ ih => exact hclosed _ _ ih hp

theorem subset_scan {xs : List α} :
    ∀ (fuel : ℕ) (S T : Finset α), scan par xs fuel S = some T → S ⊆ T := by
  intro fuel
  induction fuel with
  | zero => intro S T h; cases h
  | succ n ih =>
    intro S T h
    rw [scan] at h
    split at h
    · exact (subset_looks xs (S, false)).trans (ih _ _ h)
    · exact Option.some.inj h ▸ Finset.Subset.refl S

theorem scan_sound {xs : List α} {S₀ : Finset α} :
    ∀ (fuel : ℕ) (S T : Finset α), (∀ x ∈ S, ∃ t ∈ S₀, Descends par x t) →
      scan par xs fuel S = some T → ∀ x ∈ T, ∃ t ∈ S₀, Descends par x t := by
  intro fuel
  induction fuel with
  | zero => intro S T _ h; cases h
  | succ n ih =>
    intro S T hS h
    rw [scan] at h
    split at h
    · exact ih _ _ (looks_sound xs (S, false) hS) h
    · exact Option.some.inj h ▸ hS

theorem scan_closed {xs : List α} (hxs : ∀ x, x ∈ xs) :
    ∀ (fuel : ℕ) (S T : Finset α), scan par xs fuel S = some T →
      ∀ x, ∀ y ∈ T, par x = some y → x ∈ T := by
  intro fuel
  induction fuel with
  | zero => intro S T h; cases h
  | succ n ih =>
    intro S T h
    rw [scan] at h
    split at h
    · exact ih _ _ h
    · rename_i hflag
      obtain rfl := Option.some.inj h
      obtain ⟨-, hclosed⟩ := looks_lowered xs (S, false) (Bool.eq_false_iff.mpr hflag)
      exact fun x => hclosed x (hxs x)

/-- **The scan computes the descendants**, for every complete list of points
and every amount of fuel that is enough. -/
theorem mem_scan_iff {xs : List α} (hxs : ∀ x, x ∈ xs) {fuel : ℕ} {S T : Finset α}
    (h : scan par xs fuel S = some T) (x : α) :
    x ∈ T ↔ ∃ t ∈ S, Descends par x t := by
  constructor
  · exact scan_sound fuel S T (fun z hz => ⟨z, hz, .refl⟩) h x
  · rintro ⟨t, ht, hd⟩
    exact mem_of_descends (scan_closed hxs fuel S T h) hd (subset_scan fuel S T h ht)

/-- **The scan ends**: each pass but the last adds a point, and there are only so many points. -/
theorem scan_isSome [Fintype α] (par : α → Option α) (xs : List α) :
    ∀ (fuel : ℕ) (S : Finset α), Fintype.card α < S.card + fuel →
      ∃ T, scan par xs fuel S = some T := by
  intro fuel
  induction fuel with
  | zero =>
    intro S h
    have := Finset.card_le_univ S
    omega
  | succ n ih =>
    intro S h
    rw [scan]
    split
    · rename_i hflag
      have hgrow := looks_raised xs (S, false) rfl hflag
      refine ih _ ?_
      change S.card < (pass par xs S).1.card at hgrow
      omega
    · exact ⟨S, rfl⟩

end Wari.Lib
