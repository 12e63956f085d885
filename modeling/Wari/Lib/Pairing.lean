import Mathlib.Data.Set.Function

/-!
# Taking away from two sets in bijection

Where a function pairs the elements of two sets, elements taken away from the first and the
partners of elements taken away from the second leave them paired exactly if those are the
same elements.
-/

namespace Wari.Lib

universe u v

variable {α : Type u} {β : Type v} {f : α → β} {E R K : Set α} {H : Set β}

theorem bijOn_diff_iff (h : Set.BijOn f E H) (hR : R ⊆ E) (hK : K ⊆ E) :
    Set.BijOn f (E \ R) (H \ f '' K) ↔ K = R := by
  have hleft : f '' (E \ R) = H \ f '' R := by
    rw [h.injOn.image_sdiff_subset hR, h.image_eq]
  constructor
  · intro hpaired
    have hsame : H \ f '' K = H \ f '' R := hpaired.image_eq.symm.trans hleft
    have hin : ∀ {A : Set α}, A ⊆ E → f '' A ⊆ H := fun hA =>
      (Set.image_mono hA).trans h.image_eq.subset
    have himages : f '' K = f '' R := by
      rw [← Set.sdiff_sdiff_cancel_left (hin hK), hsame, Set.sdiff_sdiff_cancel_left (hin hR)]
    exact (h.injOn.image_eq_image_iff hK hR).mp himages
  · rintro rfl
    rw [← hleft]
    exact (h.injOn.mono Set.sdiff_subset).bijOn_image

end Wari.Lib
