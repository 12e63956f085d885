import Mathlib.Algebra.GroupWithZero.Nat
import Mathlib.Data.Nat.Count

/-!
# Bitmaps over machine words

A set of numbers below `n * w` held as `n` words of `w` bits: bit `i` is bit
`i % w` of word `i / w`. Setting and testing a bit index an array, so both are
partial: `none` is the index out of bounds.
-/

namespace Wari.Lib

/-- A bitmap of `n` words with `w` bits each. -/
structure Bitmap (w n : ℕ) where
  /-- the words -/
  words : Fin n → BitVec w

namespace Bitmap

variable {w n : ℕ}

/-- The bitmap with no bit set. -/
def empty : Bitmap w n := ⟨fun _ => 0#w⟩

/-- Set bit `i`; out of bounds past the last word. -/
def set? (b : Bitmap w n) (i : ℕ) : Option (Bitmap w n) :=
  if h : i / w < n then
    some ⟨Function.update b.words ⟨i / w, h⟩ (b.words ⟨i / w, h⟩ ||| 1#w <<< (i % w))⟩
  else none

/-- Test bit `i`; out of bounds past the last word. -/
def test? (b : Bitmap w n) (i : ℕ) : Option Bool :=
  if h : i / w < n then some (b.words ⟨i / w, h⟩ >>> (i % w) &&& 1#w == 1#w) else none

/-- Shifting a bit down and masking reads it. -/
theorem shift_and_one (hw : 0 < w) (x : BitVec w) (k : ℕ) :
    (x >>> k &&& 1#w == 1#w) = x.getLsbD k := by
  have hne : (0#w) ≠ 1#w := by
    intro h
    have := congrArg (·.getLsbD 0) h
    simp [hw] at this
  rw [BitVec.and_one_eq_setWidth_ofBool_getLsbD, BitVec.getLsbD_ushiftRight]
  have hone : (1#1).setWidth w = 1#w := by
    apply BitVec.eq_of_getLsbD_eq
    intro i hi
    simp [hi]
  rcases x.getLsbD k with _ | _
  · simpa using hne
  · simp [hone]

theorem test?_eq (hw : 0 < w) (b : Bitmap w n) {i : ℕ} (h : i / w < n) :
    b.test? i = some ((b.words ⟨i / w, h⟩).getLsbD (i % w)) := by
  rw [test?, dif_pos h, shift_and_one hw]

theorem test?_empty (hw : 0 < w) {i : ℕ} (h : i / w < n) :
    (empty : Bitmap w n).test? i = some false := by
  rw [test?_eq hw _ h]
  simp [empty]

theorem set?_isSome (b : Bitmap w n) {i : ℕ} (h : i / w < n) : ∃ b', b.set? i = some b' :=
  ⟨_, dif_pos h⟩

/-- **Setting a bit sets that bit** and no other, wherever in the words it is. -/
theorem test?_set? (hw : 0 < w) {b b' : Bitmap w n} {i : ℕ} (hs : b.set? i = some b') (j : ℕ) :
    b'.test? j = if j = i then some true else b.test? j := by
  rw [set?] at hs
  split at hs
  · rename_i hi
    obtain rfl := Option.some.inj hs
    have himod : i % w < w := Nat.mod_lt i hw
    by_cases hj : j / w < n
    · rw [test?_eq hw _ hj, test?_eq hw _ hj]
      by_cases hword : j / w = i / w
      · have hfin : (⟨j / w, hj⟩ : Fin n) = ⟨i / w, hi⟩ := Fin.ext hword
        rw [hfin]
        simp only [Function.update_self, BitVec.getLsbD_or, BitVec.getLsbD_shiftLeft,
          BitVec.getLsbD_one]
        by_cases hij : j = i
        · subst hij
          simp [himod, hw]
        · -- the same word, another bit of it
          have hmod : j % w ≠ i % w := by
            intro hm
            exact hij (by rw [← Nat.div_add_mod j w, ← Nat.div_add_mod i w, hword, hm])
          rw [if_neg hij]
          congr 1
          by_cases hlt : j % w < i % w
          · simp [hlt]
          · have : j % w - i % w ≠ 0 := by omega
            simp [this]
      · have hfin : (⟨j / w, hj⟩ : Fin n) ≠ ⟨i / w, hi⟩ := fun h => hword (congrArg Fin.val h)
        have hij : j ≠ i := fun h => hword (by rw [h])
        rw [if_neg hij]
        simp only [Function.update_of_ne hfin]
    · have hij : j ≠ i := fun h => hj (h ▸ hi)
      rw [if_neg hij, test?, test?, dif_neg hj, dif_neg hj]
  · cases hs

/-! ## Word by word

Code that scans a bitmap has the word in hand, and reads and writes bit `j` of word `k` by
masks. `get` reads the bitmap as a set of numbers.
-/

/-- Whether bit `i` is set; past the last word it is not. -/
def get (b : Bitmap w n) (i : ℕ) : Bool :=
  if h : i / w < n then (b.words ⟨i / w, h⟩).getLsbD (i % w) else false

/-- Set bit `j` of word `k`, by a mask. -/
def insertAt (b : Bitmap w n) (k : Fin n) (j : ℕ) : Bitmap w n :=
  ⟨Function.update b.words k (b.words k ||| 1#w <<< j)⟩

/-- Clear bit `j` of word `k`, by a mask. -/
def eraseAt (b : Bitmap w n) (k : Fin n) (j : ℕ) : Bitmap w n :=
  ⟨Function.update b.words k (b.words k &&& ~~~(1#w <<< j))⟩

section Words

variable (b : Bitmap w n) (k : Fin n) {j : ℕ}

@[simp] theorem get_empty (i : ℕ) : (empty : Bitmap w n).get i = false := by
  simp [get, empty]

theorem get_of_lt {i : ℕ} (h : i / w < n) :
    b.get i = (b.words ⟨i / w, h⟩).getLsbD (i % w) := dif_pos h

/-- Bit `j` of word `k`, as a number. -/
theorem get_word (hj : j < w) : b.get (k * w + j) = (b.words k).getLsbD j := by
  have hdiv : (k * w + j) / w = k := by
    rw [Nat.mul_comm, Nat.mul_add_div (by omega), Nat.div_eq_of_lt hj, Nat.add_zero]
  have hmod : (k * w + j) % w = j := by
    rw [Nat.mul_comm, Nat.mul_add_mod, Nat.mod_eq_of_lt hj]
  have hlt : (k * w + j) / w < n := by
    rw [hdiv]
    exact k.isLt
  have hfin : (⟨(k * w + j) / w, hlt⟩ : Fin n) = k := Fin.ext hdiv
  rw [get_of_lt b hlt, hmod, hfin]

/-- A number is bit `j` of word `k` when its quotient is `k` and its remainder is `j`. -/
theorem eq_word_iff (hj : j < w) (i : ℕ) : i = k * w + j ↔ i / w = k ∧ i % w = j := by
  constructor
  · rintro rfl
    rw [Nat.mul_comm, Nat.mul_add_div (by omega), Nat.div_eq_of_lt hj, Nat.mul_add_mod,
      Nat.mod_eq_of_lt hj]
    exact ⟨rfl, rfl⟩
  · rintro ⟨hdiv, hmod⟩
    rw [← hdiv, ← hmod]
    exact (Nat.div_add_mod' i w).symm

theorem getLsbD_one_shiftLeft (hj : j < w) (m : ℕ) :
    ((1#w) <<< j).getLsbD m = decide (m = j) := by
  rw [BitVec.getLsbD_shiftLeft, BitVec.getLsbD_one]
  by_cases hm : m = j
  · subst hm
    simp [hj, Nat.zero_lt_of_lt hj]
  · simp only [hm, decide_false]
    by_cases hlt : m < j
    · simp [hlt]
    · have hne : m - j ≠ 0 := by omega
      simp [hne]

/-- What a changed word does to the bits. -/
theorem get_update {x : BitVec w} {v : Bool}
    (hx : ∀ m, x.getLsbD m = if m = j then v else (b.words k).getLsbD m) (hj : j < w) (i : ℕ) :
    (⟨Function.update b.words k x⟩ : Bitmap w n).get i =
      if i = k * w + j then v else b.get i := by
  have hw : 0 < w := Nat.zero_lt_of_lt hj
  by_cases hlt : i / w < n
  · rw [get_of_lt _ hlt, get_of_lt _ hlt]
    by_cases hk : i / w = k
    · have hfin : (⟨i / w, hlt⟩ : Fin n) = k := Fin.ext hk
      rw [hfin]
      simp only [Function.update_self, hx, eq_word_iff k hj, hk, true_and]
    · have hfin : (⟨i / w, hlt⟩ : Fin n) ≠ k := fun h => hk (congrArg Fin.val h)
      simp only [Function.update_of_ne hfin, eq_word_iff k hj, hk, false_and, if_false]
  · have hne : i ≠ k * w + j := fun h => hlt (((eq_word_iff k hj i).mp h).1 ▸ k.isLt)
    rw [if_neg hne, get, get, dif_neg hlt, dif_neg hlt]

/-- **Setting a bit** sets that one, and leaves all others. -/
theorem get_insertAt (hj : j < w) (i : ℕ) :
    (b.insertAt k j).get i = if i = k * w + j then true else b.get i := by
  refine get_update b k (fun m => ?_) hj i
  rw [BitVec.getLsbD_or, getLsbD_one_shiftLeft hj]
  by_cases hm : m = j <;> simp [hm]

/-- **Clearing a bit** clears that one, and leaves all others. -/
theorem get_eraseAt (hj : j < w) (i : ℕ) :
    (b.eraseAt k j).get i = if i = k * w + j then false else b.get i := by
  refine get_update b k (fun m => ?_) hj i
  rw [BitVec.getLsbD_and, BitVec.getLsbD_not, getLsbD_one_shiftLeft hj]
  by_cases hm : m = j
  · simp [hm]
  · by_cases hmw : m < w
    · simp [hm, hmw]
    · simp [hm, BitVec.getLsbD_of_ge _ _ (Nat.not_lt.mp hmw)]

/-- Masking one bit out of a word tests that bit. -/
theorem and_one_shiftLeft_eq_zero (x : BitVec w) (hj : j < w) :
    x &&& 1#w <<< j = 0#w ↔ x.getLsbD j = false := by
  constructor
  · intro h
    have hbit := congrArg (·.getLsbD j) h
    simpa [getLsbD_one_shiftLeft hj] using hbit
  · intro h
    refine BitVec.eq_of_getLsbD_eq fun m _ => ?_
    rw [BitVec.getLsbD_and, getLsbD_one_shiftLeft hj, BitVec.getLsbD_zero]
    by_cases hm : m = j
    · rw [hm, h]
      rfl
    · simp [hm]

end Words

/-! ## The first clear bit, and the number of set ones

Both are looked for word by word. The lemmas say what that means for the bits. -/

/-- The trailing ones of a word end at its first clear bit. -/
theorem first_clear {x : BitVec w} (h : x ≠ BitVec.allOnes w) :
    (~~~x).ctz.toNat < w ∧ x.getLsbD (~~~x).ctz.toNat = false ∧
      ∀ j < (~~~x).ctz.toNat, x.getLsbD j = true := by
  have hne : ~~~x ≠ 0#w := by
    intro h0
    refine h (BitVec.eq_of_getLsbD_eq fun i hi => ?_)
    have hbit := congrArg (·.getLsbD i) h0
    simpa [hi] using hbit
  have hclear := BitVec.getLsbD_true_ctz_of_ne_zero hne
  have hlt : (~~~x).ctz.toNat < w := by
    by_contra hge
    rw [BitVec.getLsbD_of_ge _ _ (Nat.not_lt.mp hge)] at hclear
    cases hclear
  refine ⟨hlt, ?_, fun j hj => ?_⟩
  · simpa [hlt] using hclear
  · have hset := BitVec.getLsbD_false_of_lt_ctz hj
    simpa [hj.trans hlt] using hset

/-- A word of ones has no clear bit. -/
theorem getLsbD_of_eq_allOnes {x : BitVec w} (h : x = BitVec.allOnes w) {j : ℕ} (hj : j < w) :
    x.getLsbD j = true := by
  rw [h, BitVec.getLsbD_allOnes]
  exact decide_eq_true hj

/-- The population count of a word counts its ones. -/
theorem toNat_cpop (x : BitVec w) : x.cpop.toNat = Nat.count (fun j => x.getLsbD j = true) w := by
  have hrec : ∀ m, x.cpopNatRec m 0 = Nat.count (fun j => x.getLsbD j = true) m := by
    intro m
    induction m with
    | zero => rfl
    | succ m ih =>
      rw [BitVec.cpopNatRec_succ, BitVec.cpopNatRec_eq, ih, Nat.count_succ]
      rcases x.getLsbD m <;> simp
  rw [BitVec.cpop, BitVec.toNat_ofNat, hrec, Nat.mod_eq_of_lt]
  exact Nat.lt_of_le_of_lt (Nat.count_le _) Nat.lt_two_pow_self

/-- **Counting the ones of the first words** counts the numbers they hold, by induction on the
words. -/
theorem sum_cpop (b : Bitmap w n) (m : ℕ) (hm : m ≤ n) :
    ((List.finRange n).take m |>.map fun k => (b.words k).cpop.toNat).sum =
      Nat.count (fun i => b.get i = true) (m * w) := by
  induction m with
  | zero => simp
  | succ m ih =>
    have hlt : m < (List.finRange n).length := by
      rw [List.length_finRange]
      exact hm
    rw [List.take_succ_eq_append_getElem hlt, List.map_append, List.sum_append,
      ih (Nat.le_of_succ_le hm), Nat.succ_mul, Nat.count_add]
    congr 1
    rw [List.map_singleton, List.sum_singleton, toNat_cpop]
    rw [Nat.count_eq_card_filter_range, Nat.count_eq_card_filter_range]
    congr 1
    refine Finset.filter_congr fun j hj => ?_
    rw [List.getElem_finRange]
    exact iff_of_eq (congrArg (· = true) (b.get_word ⟨m, hm⟩ (Finset.mem_range.mp hj)).symm)

/-- The first of the first words that is not full. -/
theorem find?_take_finRange {p : Fin n → Bool} {m : ℕ} {k : Fin n}
    (h : ((List.finRange n).take m).find? p = some k) :
    p k = true ∧ k < m ∧ ∀ j : Fin n, j < k → p j = false := by
  -- the number at a place of the list is the place
  have hplace : ∀ (i : ℕ) (x : Fin n), ((List.finRange n).take m)[i]? = some x → i = x ∧ i < m := by
    intro i x hx
    obtain ⟨hlt, rfl⟩ := List.getElem?_eq_some_iff.mp hx
    rw [List.length_take] at hlt
    exact ⟨by simp, by omega⟩
  obtain ⟨hp, before, after, hl, hbefore⟩ := List.find?_eq_some_iff_append.mp h
  have hk : ((List.finRange n).take m)[before.length]? = some k := by
    rw [hl]
    simp
  obtain ⟨hlen, hlt⟩ := hplace _ _ hk
  refine ⟨hp, hlen ▸ hlt, fun j hj => ?_⟩
  have hjlt : (j : ℕ) < before.length := by
    rw [hlen]
    exact hj
  have hjget : before[(j : ℕ)]? = some before[(j : ℕ)] := List.getElem?_eq_getElem hjlt
  have hjplace : ((List.finRange n).take m)[(j : ℕ)]? = some before[(j : ℕ)] := by
    rw [hl, List.getElem?_append_left hjlt, hjget]
  have hjeq : j = before[(j : ℕ)] := Fin.ext (hplace _ _ hjplace).1
  have hnot := hbefore _ (List.getElem_mem hjlt)
  rw [← hjeq] at hnot
  simpa using hnot

end Bitmap

end Wari.Lib
