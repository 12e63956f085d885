import Mathlib.Algebra.Order.Ring.Nat
import Mathlib.Data.List.Basic
import Mathlib.Logic.Function.Basic
import Mathlib.Tactic.Common

/-!
# Overwritten rings and their readers

A ring of `n` entries keeps the last `n` of a growing history, each at its number
modulo `n`. A reader that can fall behind goes through the numbers upwards and
may skip some: what it read, and the gaps between, make up all it passed.
-/

namespace Wari.Lib

universe u

/-! ## The ring

A ring that holds the last entries of a history, at the places that their numbers tell. -/

section Window

variable {α : Type u} {n : ℕ}

/-- The ring holds the last `n` entries of the history, each at its number modulo
`n`. -/
def Window (ring : Fin n → α) (hist : List α) : Prop :=
  ∀ (slot : Fin n) (i : ℕ) (e : α), i % n = slot.val → hist.length ≤ i + n → hist[i]? = some e →
    ring slot = e

theorem window_nil (ring : Fin n → α) : Window ring [] := by
  intro slot i e _ _ he
  cases he

/-- The next entry goes over the oldest, and the window moves on by one. -/
theorem Window.push {ring : Fin n → α} {hist : List α} (h : Window ring hist) {slot : Fin n}
    (hslot : hist.length % n = slot.val) (e : α) :
    Window (Function.update ring slot e) (hist ++ [e]) := by
  intro slot' i e' hi hle he'
  rw [List.length_append, List.length_singleton] at hle
  have hlt : i < (hist ++ [e]).length := (List.getElem?_eq_some_iff.mp he').1
  rw [List.length_append, List.length_singleton] at hlt
  by_cases hlast : i = hist.length
  · subst hlast
    rw [List.getElem?_concat_length] at he'
    have hsame : slot' = slot := Fin.ext (hi.symm.trans hslot)
    rw [hsame, Function.update_self]
    exact Option.some.inj he'
  · -- an older entry of the window sits elsewhere: it is less than a lap behind
    have hne : slot' ≠ slot := by
      rintro rfl
      have hdvd : n ∣ hist.length - i :=
        Nat.dvd_of_mod_eq_zero (Nat.sub_mod_eq_zero_of_mod_eq (hslot.trans hi.symm))
      have := Nat.le_of_dvd (by omega) hdvd
      omega
    rw [Function.update_of_ne hne]
    rw [List.getElem?_append_left (by omega)] at he'
    exact h slot' i e' hi (by omega) he'

end Window

/-! ## The reader

What a reader gets that may fall behind, and what the gaps in the numbers tell it. -/

/-- A reader that started at `start` has read the entries with these numbers, and
wants the one at its cursor next. -/
inductive Reads (start : ℕ) : List ℕ → ℕ → Prop where
  /-- nothing read yet -/
  | nil : Reads start [] start
  /-- one more, the one at the cursor or a later one -/
  | snoc {seqs : List ℕ} {cursor seq : ℕ} (h : Reads start seqs cursor) (hle : cursor ≤ seq) :
      Reads start (seqs ++ [seq]) (seq + 1)

/-- How many entries were skipped before each one read. -/
def gaps : ℕ → List ℕ → List ℕ
  | _, [] => []
  | cursor, seq :: seqs => (seq - cursor) :: gaps (seq + 1) seqs

namespace Reads

variable {start cursor : ℕ} {seqs : List ℕ}

theorem le_cursor (h : Reads start seqs cursor) : start ≤ cursor := by
  induction h with
  | nil => exact Nat.le_refl start
  | snoc _ hle ih => omega

theorem lt_cursor (h : Reads start seqs cursor) : ∀ seq ∈ seqs, seq < cursor := by
  induction h with
  | nil => intro seq hseq; cases hseq
  | snoc _ hle ih =>
    intro seq' hseq'
    rcases List.mem_append.mp hseq' with hold | hnew
    · have := ih seq' hold
      omega
    · rw [List.mem_singleton.mp hnew]
      exact Nat.lt_succ_self _

/-- The numbers that are read only go up. -/
theorem increasing (h : Reads start seqs cursor) : seqs.Pairwise (· < ·) := by
  induction h with
  | nil => exact List.Pairwise.nil
  | snoc h hle ih =>
    refine List.pairwise_append.mpr ⟨ih, List.pairwise_singleton _ _, fun a ha b hb => ?_⟩
    rw [List.mem_singleton.mp hb]
    exact Nat.lt_of_lt_of_le (h.lt_cursor a ha) hle

/-- The last gap reaches from the cursor to the number that was read. -/
theorem gaps_snoc (h : Reads start seqs cursor) (seq : ℕ) :
    gaps start (seqs ++ [seq]) = gaps start seqs ++ [seq - cursor] := by
  -- what follows the first entry is read from one past it on
  have hgen : ∀ (l : List ℕ) (c : ℕ), gaps c (l ++ [seq]) =
      gaps c l ++ [seq - (l.getLast?.elim c (· + 1))] := by
    intro l
    induction l with
    | nil => intro c; rfl
    | cons s l ih =>
      intro c
      rw [List.cons_append, gaps, ih, gaps, List.cons_append, List.getLast?_cons]
      rcases l.getLast? with _ | t <;> rfl
  rw [hgen]
  cases h with
  | nil => rfl
  | snoc h hle => rw [List.getLast?_concat]; rfl

/-- **Nothing is unaccounted for**: the entries read and the entries skipped are all
those from the start to the cursor. -/
theorem accounts (h : Reads start seqs cursor) :
    seqs.length + (gaps start seqs).sum = cursor - start := by
  induction h with
  | nil => exact (Nat.sub_self start).symm
  | snoc h hle ih =>
    have hstart := h.le_cursor
    rw [h.gaps_snoc, List.sum_append_nat, List.length_append, List.sum_singleton,
      List.length_singleton]
    omega

/-- One more read moves the cursor on. -/
theorem lt_of_snoc {cursor' seq : ℕ} (h : Reads start seqs cursor)
    (h' : Reads start (seqs ++ [seq]) cursor') : cursor < cursor' := by
  have hbefore := h.accounts
  have hafter := h'.accounts
  rw [h.gaps_snoc, List.sum_append_nat, List.length_append, List.length_singleton] at hafter
  have := h.le_cursor
  have := h'.le_cursor
  omega

end Reads

end Wari.Lib
