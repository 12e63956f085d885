import Mathlib.Data.List.Basic
import Wari.Lib.Decimal

/-!
# Texts that can be told apart

A way to write things down is prefix-free if, whatever text follows, the thing written can be read
off, and where it ends. What is put together from prefix-free parts is prefix-free, and
a history that is written down so, entry after entry, can be read off the whole text
(`PrefixFree.history_injective`), also where the way an entry is written depends on those before.
-/

namespace Wari.Lib

universe u v w x

variable {α : Type u} {β : Type v} {γ : Type w}

/-- What is written can be read off from in front of any text. -/
def PrefixFree (f : α → List β) : Prop :=
  ∀ ⦃a b : α⦄ ⦃r r' : List β⦄, f a ++ r = f b ++ r' → a = b ∧ r = r'

namespace PrefixFree

variable {f : α → List β} {g : γ → List β}

/-- A constant text in front of a prefix-free one. -/
theorem after (h : PrefixFree f) (text : List β) : PrefixFree fun a => text ++ f a := by
  intro a b r r' heq
  simp only [List.append_assoc, List.append_cancel_left_eq] at heq
  exact h heq

/-- A constant text behind a prefix-free one. -/
theorem before (h : PrefixFree f) (text : List β) : PrefixFree fun a => f a ++ text := by
  intro a b r r' heq
  simp only [List.append_assoc] at heq
  obtain ⟨rfl, hrest⟩ := h heq
  exact ⟨rfl, List.append_cancel_left hrest⟩

/-- **One after the other**, prefix-free texts are read apart again. -/
theorem pair (hf : PrefixFree f) (hg : PrefixFree g) :
    PrefixFree fun p : α × γ => f p.1 ++ g p.2 := by
  rintro ⟨a, c⟩ ⟨b, d⟩ r r' heq
  simp only [List.append_assoc] at heq
  obtain ⟨rfl, hrest⟩ := hf heq
  obtain ⟨rfl, rfl⟩ := hg hrest
  exact ⟨rfl, rfl⟩

theorem comp {g : γ → α} (h : PrefixFree f) (hg : Function.Injective g) :
    PrefixFree fun c => f (g c) := by
  intro c d r r' heq
  obtain ⟨hcd, hr⟩ := h heq
  exact ⟨hg hcd, hr⟩

end PrefixFree

/-- Texts without a separator, and the separator behind. -/
theorem prefixFree_separated {f : α → List β} (hf : Function.Injective f) {sep : β}
    (h : ∀ a, sep ∉ f a) : PrefixFree fun a => f a ++ [sep] := by
  have hsplit : ∀ (xs ys r r' : List β), sep ∉ xs → sep ∉ ys →
      xs ++ sep :: r = ys ++ sep :: r' → xs = ys ∧ r = r' := by
    intro xs
    induction xs with
    | nil =>
      intro ys r r' _ hys heq
      cases ys with
      | nil => exact ⟨rfl, (List.cons.inj heq).2⟩
      | cons y ys => exact (hys ((List.cons.inj heq).1 ▸ List.mem_cons_self)).elim
    | cons x xs ih =>
      intro ys r r' hxs hys heq
      cases ys with
      | nil => exact (hxs ((List.cons.inj heq).1 ▸ List.mem_cons_self)).elim
      | cons y ys =>
        obtain ⟨rfl, hrest⟩ := List.cons.inj heq
        obtain ⟨rfl, rfl⟩ := ih ys r r' (fun hmem => hxs (List.mem_cons_of_mem _ hmem))
          (fun hmem => hys (List.mem_cons_of_mem _ hmem)) hrest
        exact ⟨rfl, rfl⟩
  intro a b r r' heq
  simp only [List.append_assoc, List.singleton_append] at heq
  obtain ⟨hab, rfl⟩ := hsplit _ _ r r' (h a) (h b) heq
  exact ⟨hf hab, rfl⟩

/-- Decimal numerals with something behind that is no digit. -/
theorem prefixFree_numeral {sep : BitVec 8} (h : ¬ Decimal.IsDigit sep) :
    PrefixFree fun n => Decimal.numeral n ++ [sep] := by
  refine prefixFree_separated ?_ fun n hmem => h (Decimal.isDigit_numeral n sep hmem)
  intro m n hmn
  rw [← Decimal.value_numeral m, hmn, Decimal.value_numeral]

/-! ## Histories

A text that is written entry after entry, where how an entry is written may depend on those before
it. -/

section History

variable {σ : Type x} (f : σ → α → List β) (next : σ → α → σ)

/-- A history, entry after entry, where each may depend on what came before. -/
def history : σ → List α → List β
  | _, [] => []
  | s, a :: as => f s a ++ history (next s a) as

theorem history_append (s : σ) (as bs : List α) :
    history f next s (as ++ bs) =
      history f next s as ++ history f next (as.foldl next s) bs := by
  induction as generalizing s with
  | nil => rfl
  | cons a as ih => rw [List.cons_append, history, history, ih, List.append_assoc, List.foldl_cons]

variable {f}

/-- **A history can be read off** its text: the first entry is told by the text, and then the rest
in turn. -/
theorem PrefixFree.history_injective (h : ∀ s, PrefixFree (f s)) (hne : ∀ s a, f s a ≠ [])
    (s : σ) : Function.Injective (history f next s) := by
  intro as
  induction as generalizing s with
  | nil =>
    intro bs heq
    cases bs with
    | nil => rfl
    | cons b bs => exact (hne s b (List.append_eq_nil_iff.mp heq.symm).1).elim
  | cons a as ih =>
    intro bs heq
    cases bs with
    | nil => exact (hne s a (List.append_eq_nil_iff.mp heq).1).elim
    | cons b bs =>
      obtain ⟨rfl, hrest⟩ := h s heq
      rw [ih (next s a) hrest]

end History

end Wari.Lib
