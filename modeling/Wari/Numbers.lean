import Wari.Responses

/-!
# Numbers in requests and responses

`put_i64` writes a number and `parse_i64` reads one. What is read is what the text says, and
what is written is read back, but for the smallest number: its digits are added up without
their sign, and come to one more than the greatest.
-/

namespace Wari

open Lib (Bytes Writer)

/-- The text says the number: digits, with a minus sign in front or without. -/
inductive Says : Bytes → ℤ → Prop where
  | plain {ds : Bytes} (h : Digits ds) : Says ds (Lib.Decimal.value ds)
  | minus {ds : Bytes} (h : Digits ds) : Says (0x2D#8 :: ds) (-Lib.Decimal.value ds)

/-- The integers that fit `i64`. -/
def IsI64 (v : ℤ) : Prop := -2 ^ 63 ≤ v ∧ v ≤ 2 ^ 63 - 1

/-- `i64::MIN` -/
def i64Min : ℤ := -2 ^ 63

/-- What is read is what the text says. -/
theorem parseI64_says {s : Bytes} {v : ℤ} (h : parseI64 s = .ok v) : Says s v := by
  obtain ⟨ds, n, hne, hparse, hv⟩ := parseI64_ok h
  obtain ⟨hall, rfl⟩ := parseDigits_ok hparse
  rw [zero_mul, zero_add] at hv
  rcases hv with ⟨rfl, rfl⟩ | ⟨rfl, rfl⟩
  · exact .plain ⟨hne, hall⟩
  · exact .minus ⟨hne, hall⟩

/-- A number has a text, and it is written. -/
theorem exists_i64Text {v : ℤ} (h : IsI64 v) :
    ∃ text, i64Text v = some text ∧ Says text v ∧ Writer.Writes (putI64 v) text := by
  obtain ⟨hmin, hmax⟩ := h
  have heq := i64Text_numeral (v := v) (by omega)
  have hdigits : Digits (Lib.Decimal.numeral v.natAbs) :=
    ⟨Lib.Decimal.numeral_ne_nil _, Lib.Decimal.isDigit_numeral _⟩
  refine ⟨_, heq, ?_, putI64_writes heq⟩
  by_cases hneg : v < 0
  · have hsays := Says.minus hdigits
    rw [Lib.Decimal.value_numeral] at hsays
    rw [if_pos hneg]
    convert hsays using 1
    omega
  · have hsays := Says.plain hdigits
    rw [Lib.Decimal.value_numeral] at hsays
    rw [if_neg hneg]
    convert hsays using 1
    omega

/-- The smallest number is written, and is not read. -/
theorem i64Min_text : ∃ text, i64Text i64Min = some text ∧ parseI64 text = .error .badNumber := by
  refine ⟨_, i64Text_numeral (by decide), ?_⟩
  decide +kernel

/-- **The codec of numbers.** What is read is what the text says; what is written is read back
as what it was, if and only if that is not the smallest number. -/
theorem i64_codec (v : ℤ) (s : Bytes) :
    (IsI64 v → ∃ text, Says text v ∧ Writer.Writes (putI64 v) text ∧
      (parseI64 text = .ok v ↔ v ≠ i64Min)) ∧
    (parseI64 s = .ok v → IsI64 v ∧ Says s v) := by
  refine ⟨fun hv => ?_, fun h => ⟨?_, parseI64_says h⟩⟩
  · obtain ⟨text, heq, hsays, hwrites⟩ := exists_i64Text hv
    refine ⟨text, hsays, hwrites, ?_⟩
    by_cases hmin : v = i64Min
    · obtain ⟨text', heq', herr⟩ := i64Min_text
      rw [hmin, heq'] at heq
      rw [← Option.some.inj heq, herr]
      exact iff_of_false (fun h => nomatch h) (not_not.mpr hmin)
    · obtain ⟨hge, hle⟩ := hv
      have habs : v.natAbs ≤ 2 ^ 63 - 1 := by
        rw [i64Min] at hmin
        omega
      obtain ⟨text', heq', hreads⟩ := i64Text_eq habs
      rw [heq] at heq'
      rw [Option.some.inj heq']
      exact iff_of_true hreads.parse hmin
  · have := parseI64_bounds h
    constructor <;> omega

/-- The smallest number is not read back: its digits alone are one more than the largest. -/
theorem i64_codec_min : ¬ ∀ v text, IsI64 v → i64Text v = some text → parseI64 text = .ok v := by
  intro hall
  obtain ⟨text, heq, herr⟩ := i64Min_text
  have hok := hall i64Min text ⟨le_rfl, by decide⟩ heq
  rw [herr] at hok
  cases hok

end Wari
