import Wari.Lib.Slice

/-!
# Programs that index

A program over slices that checks every index: past the end of a slice it faults, and so it
does with no frame left for a call, or no turn left for a loop. `Agrees` compares it with a
program that has nothing to check. One that agrees does not fault.
-/

namespace Wari.Lib

variable {ε α β γ δ : Type}

/-! ## Success

When a program made of steps succeeds, for steps in sequence and in loops. -/

/-- Success of one step after the other is success of both. -/
theorem bind_eq_ok {x : Except ε α} {g : α → Except ε β} {y : β} :
    (x >>= g) = .ok y ↔ ∃ a, x = .ok a ∧ g a = .ok y := by
  cases x with
  | error e =>
    refine iff_of_false (fun h => ?_) (by simp)
    cases h
  | ok a =>
    constructor
    · exact fun h => ⟨a, rfl, h⟩
    · rintro ⟨a', ha, h⟩
      rw [Except.ok.inj ha]
      exact h

theorem bind_ok {x : Except ε α} {g : α → Except ε β} {y : β} (h : (x >>= g) = .ok y) :
    ∃ a, x = .ok a ∧ g a = .ok y := bind_eq_ok.mp h

/-- Success of a loop is success of every round. -/
theorem forM_eq_ok {f : α → Except ε Unit} {l : List α} :
    forM l f = .ok () ↔ ∀ a ∈ l, f a = .ok () := by
  induction l with
  | nil => simp [pure, Except.pure]
  | cons a l ih =>
    rw [List.forM_cons, List.forall_mem_cons, bind_eq_ok, ← ih]
    constructor
    · rintro ⟨⟨⟩, ha, h⟩
      exact ⟨ha, h⟩
    · rintro ⟨ha, h⟩
      exact ⟨(), ha, h⟩

@[simp] theorem mapError_eq_ok {f : ε → δ} {x : Except ε α} {a : α} :
    x.mapError f = .ok a ↔ x = .ok a := by
  cases x <;> simp [Except.mapError]

/-! ## Faults

What can go wrong in a program that indexes, recurs and loops is told apart from its own errors.
-/

/-- Why a program ends early: because it refuses, or because something went wrong that it is to be
proved free of. -/
inductive Fault (ε : Type) where
  /-- it refuses what it was given -/
  | refused (e : ε)
  /-- an index is outside its slice -/
  | outside
  /-- no frame is left for a call -/
  | overflow
  /-- no turn is left for a loop -/
  | spins
  deriving DecidableEq, Repr

/-- The same, with what it refuses told in other words. -/
def Fault.map (f : ε → δ) : Fault ε → Fault δ
  | .refused e => .refused (f e)
  | .outside => .outside
  | .overflow => .overflow
  | .spins => .spins

/-- What a program that indexes computes: a result, a refusal, or a fault. -/
abbrev Checked (ε α : Type) : Type := Except (Fault ε) α

namespace Checked

/-- The program ends, and stays within its slices and its stack. -/
def Safe (x : Checked ε α) : Prop := ∀ f, x = .error f → ∃ e, f = .refused e

@[simp] theorem ok_bind (a : α) (f : α → Checked ε β) :
    ((Except.ok a : Checked ε α) >>= f) = f a := rfl

@[simp] theorem error_bind (e : Fault ε) (f : α → Checked ε β) :
    ((Except.error e : Checked ε α) >>= f) = .error e := rfl

/-- A refusal is no result, but a fault stays one. -/
def orNone : Checked ε α → Checked ε (Option α)
  | .ok a => .ok (some a)
  | .error (.refused _) => .ok none
  | .error .outside => .error .outside
  | .error .overflow => .error .overflow
  | .error .spins => .error .spins

/-- **Two programs agree**: both have results, and these are related, or both refuse. -/
inductive Agrees (R : α → β → Prop) : Checked ε α → Except ε β → Prop where
  | ok {a : α} {b : β} (h : R a b) : Agrees R (.ok a) (.ok b)
  | error (e : ε) : Agrees R (.error (.refused e)) (.error e)

namespace Agrees

variable {R : α → β → Prop} {S : γ → δ → Prop} {x : Checked ε α} {y : Except ε β}

theorem cases (h : Agrees R x y) :
    (∃ a b, x = .ok a ∧ y = .ok b ∧ R a b) ∨ ∃ e, x = .error (.refused e) ∧ y = .error e := by
  cases h with
  | ok h => exact .inl ⟨_, _, rfl, rfl, h⟩
  | error e => exact .inr ⟨e, rfl, rfl⟩

/-- Where steps agree one by one, they agree one after the other. -/
theorem bind (h : Agrees R x y) {f : α → Checked ε γ} {g : β → Except ε δ}
    (hfg : ∀ a b, R a b → Agrees S (f a) (g b)) : Agrees S (x >>= f) (y >>= g) := by
  cases h with
  | ok h => exact hfg _ _ h
  | error e => exact .error e

theorem mono (h : Agrees R x y) {R' : α → β → Prop} (hR : ∀ a b, R a b → R' a b) :
    Agrees R' x y := by
  cases h with
  | ok h => exact .ok (hR _ _ h)
  | error e => exact .error e

/-- **What agrees is safe**: the other side has no faults that it could agree with. -/
theorem safe (h : Agrees R x y) : x.Safe := by
  intro f hf
  cases h with
  | ok h => cases hf
  | error e =>
    obtain rfl := Except.error.inj hf
    exact ⟨e, rfl⟩

end Agrees

end Checked

namespace Slice

/-- `&s[i..]`, which is a fault where `i` is past the end. -/
def dropAt (s : Slice) (i : ℕ) : Checked ε Slice :=
  if i ≤ s.bytes.length then .ok ⟨s.start + i, s.bytes.drop i⟩ else .error .outside

/-- `&s[i..j]`, which is a fault where the bounds are crossed or past the end. -/
def sub (s : Slice) (i j : ℕ) : Checked ε Slice :=
  if i ≤ j ∧ j ≤ s.bytes.length then .ok ⟨s.start + i, (s.bytes.take j).drop i⟩
  else .error .outside

/-- `s[i]`, which is a fault where `i` is past the end. -/
def index (s : Slice) (i : ℕ) : Checked ε (BitVec 8) :=
  match s.bytes[i]? with
  | some c => .ok c
  | none => .error .outside

/-- The piece lies in the slice, at the place that its start tells. -/
def PartOf (t s : Slice) : Prop :=
  ∃ front back, s.bytes = front ++ (t.bytes ++ back) ∧ t.start = s.start + front.length

theorem PartOf.trans {t s r : Slice} (h : t.PartOf s) (h' : s.PartOf r) : t.PartOf r := by
  obtain ⟨front, back, hs, ht⟩ := h
  obtain ⟨front', back', hr, hs'⟩ := h'
  refine ⟨front' ++ front, back ++ back', ?_, ?_⟩
  · simp [hr, hs]
  · rw [ht, hs', List.length_append, Nat.add_assoc]

/-- **What lies in a text** is there where it says: its bytes are those of the text from its start
on. -/
theorem PartOf.of_text {t : Slice} {text : Bytes} (h : t.PartOf ⟨0, text⟩) :
    t.start + t.bytes.length ≤ text.length ∧
      (text.drop t.start).take t.bytes.length = t.bytes := by
  obtain ⟨front, back, htext, hstart⟩ := h
  dsimp only at htext hstart
  rw [Nat.zero_add] at hstart
  rw [htext, hstart]
  refine ⟨?_, ?_⟩
  · simp only [List.length_append]
    omega
  · rw [List.drop_left, List.take_left]

theorem sub_ok {s : Slice} {i j : ℕ} (hij : i ≤ j) (hj : j ≤ s.bytes.length) :
    (s.sub i j : Checked ε Slice) = .ok ⟨s.start + i, (s.bytes.take j).drop i⟩ := if_pos ⟨hij, hj⟩

theorem partOf_take {s : Slice} {i j : ℕ} (hij : i ≤ j) (hj : j ≤ s.bytes.length) :
    (⟨s.start + i, (s.bytes.take j).drop i⟩ : Slice).PartOf s := by
  refine ⟨s.bytes.take i, s.bytes.drop j, ?_, ?_⟩
  · have htake : s.bytes.take i = (s.bytes.take j).take i := by
      rw [List.take_take, Nat.min_eq_left hij]
    rw [htake, ← List.append_assoc, List.take_append_drop, List.take_append_drop]
  · rw [List.length_take, Nat.min_eq_left (hij.trans hj)]

/-- From index `i` on, `rest` is what is left of the slice. -/
def At (s : Slice) (i : ℕ) (rest : Bytes) : Prop :=
  ∃ front, s.bytes = front ++ rest ∧ front.length = i

theorem at_zero (s : Slice) : s.At 0 s.bytes := ⟨[], rfl, rfl⟩

namespace At

variable {s : Slice} {i n : ℕ} {c : BitVec 8} {rest rest' : Bytes}

theorem length (h : s.At i rest) : i + rest.length = s.bytes.length := by
  obtain ⟨front, hs, rfl⟩ := h
  rw [hs, List.length_append]

theorem of_append (h : s.At i (rest ++ rest')) : s.At (i + rest.length) rest' := by
  obtain ⟨front, hs, rfl⟩ := h
  exact ⟨front ++ rest, by rw [hs, List.append_assoc], List.length_append⟩

theorem of_cons (h : s.At i (c :: rest)) : s.At (i + 1) rest :=
  @of_append s i [c] rest h

theorem dropAt (h : s.At i rest) : (s.dropAt i : Checked ε Slice) = .ok ⟨s.start + i, rest⟩ := by
  have hlen := h.length
  obtain ⟨front, hs, rfl⟩ := h
  rw [Slice.dropAt, if_pos (by omega), hs, List.drop_left]

theorem getElem? (h : s.At i rest) : s.bytes[i]? = rest.head? := by
  obtain ⟨front, hs, rfl⟩ := h
  rw [hs, List.getElem?_append_right (Nat.le_refl _), Nat.sub_self, List.head?_eq_getElem?]

theorem index (h : s.At i (c :: rest)) : (s.index i : Checked ε (BitVec 8)) = .ok c := by
  rw [Slice.index, h.getElem?]
  rfl

/-- What is left from an index on, and from a later one on. -/
theorem trans (h : s.At i rest) (h' : (⟨s.start + i, rest⟩ : Slice).At n rest') :
    s.At (i + n) rest' := by
  obtain ⟨front, hrest, rfl⟩ := h'
  dsimp only at hrest
  rw [hrest] at h
  exact h.of_append

end At

end Slice

end Wari.Lib
