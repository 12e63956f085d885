import Wari.Lib.Bytes
import Wari.Lib.Slice

/-!
# Writing into a buffer

A writer fills a buffer from its start, and stops where the next piece does not fit. Programs
that write are composed with `>=>`, and what they write is appended.
-/

namespace Wari.Lib

/-- A buffer, and how much of it is filled. -/
structure Writer where
  out : Bytes
  len : ℕ
  deriving DecidableEq, Repr

/-- Why a program that writes ends early: for want of room, or by a panic. -/
inductive Stop where
  /-- the next piece does not fit -/
  | full (w : Writer)
  | panics
  deriving DecidableEq, Repr

namespace Writer

/-- A buffer that nothing has been written to. -/
def new (out : Bytes) : Writer := ⟨out, 0⟩

/-- Write a piece, if it fits. A length past the end of the buffer is past it also where it
does not fit a machine word. -/
def put (w : Writer) (b : Bytes) : Except Stop Writer :=
  match writeAt w.out w.len b with
  | some out => .ok ⟨out, w.len + b.length⟩
  | none => .error (.full w)

/-- The buffer `out` with the text at its start, and unchanged behind. -/
structure Holds (out text : Bytes) (w : Writer) : Prop where
  fits : text.length ≤ out.length
  len : w.len = text.length
  out : w.out = text ++ out.drop text.length

/-- **A program writes a text**: all of it where it fits, or else a part of it. -/
def Writes (p : Writer → Except Stop Writer) (text : Bytes) : Prop :=
  ∀ out done w, Holds out done w →
    ((done ++ text).length ≤ out.length ∧ ∃ w', p w = .ok w' ∧ Holds out (done ++ text) w') ∨
    (out.length < (done ++ text).length ∧
      ∃ w' part, p w = .error (.full w') ∧ part <+: done ++ text ∧ Holds out part w')

theorem holds_new (out : Bytes) : Holds out [] (new out) := ⟨Nat.zero_le _, rfl, rfl⟩

theorem put_eq (w : Writer) (b : Bytes) :
    w.put b =
      if w.len + b.length ≤ w.out.length then
        .ok ⟨w.out.take w.len ++ b ++ w.out.drop (w.len + b.length), w.len + b.length⟩
      else .error (.full w) := by
  by_cases hfits : w.len + b.length ≤ w.out.length
  · rw [put, writeAt, if_pos hfits, if_pos hfits]
  · rw [put, writeAt, if_neg hfits, if_neg hfits]

/-- A piece that is put is what is written. -/
theorem writes_put (b : Bytes) : Writes (fun w => w.put b) b := by
  intro out done w h
  have hlen : w.out.length = out.length := by
    rw [h.out, List.length_append, List.length_drop]
    have := h.fits
    omega
  dsimp only
  rw [List.length_append, put_eq, h.len, hlen]
  by_cases hfits : done.length + b.length ≤ out.length
  · rw [if_pos hfits]
    refine .inl ⟨hfits, _, rfl, ?_, ?_, ?_⟩
    · rwa [List.length_append]
    · rw [List.length_append]
    · simp [h.out]
  · rw [if_neg hfits]
    exact .inr ⟨Nat.not_le.mp hfits, w, done, rfl, List.prefix_append _ _, h⟩

/-- **One after the other**: what is written is what each writes, in order. -/
theorem Writes.comp {p q : Writer → Except Stop Writer} {a b : Bytes} (hp : Writes p a)
    (hq : Writes q b) : Writes (p >=> q) (a ++ b) := by
  intro out done w h
  rw [← List.append_assoc]
  rcases hp out done w h with ⟨-, w', hw', h'⟩ | ⟨hlt, w', part, hw', hpart, h'⟩
  · have hthen : (p >=> q) w = q w' := by
      simp only [Bind.kleisliRight, hw']
      rfl
    rw [hthen]
    exact hq out (done ++ a) w' h'
  · refine .inr ⟨?_, w', part, ?_, hpart.trans (List.prefix_append _ _), h'⟩
    · rw [List.length_append]
      omega
    · simp only [Bind.kleisliRight, hw']
      rfl

/-- **From an empty buffer**: the text is in the buffer where it fits, and nothing behind it is
changed. -/
theorem Writes.run {p : Writer → Except Stop Writer} {text : Bytes} (h : Writes p text)
    (out : Bytes) :
    (text.length ≤ out.length ∧
      ∃ w, p (new out) = .ok w ∧ w.len = text.length ∧ w.out = text ++ out.drop text.length) ∨
    (out.length < text.length ∧
      ∃ w, p (new out) = .error (.full w) ∧ w.out.length = out.length) := by
  rcases h out [] (new out) (holds_new out) with
    ⟨hfits, w, hw, hholds⟩ | ⟨hfull, w, part, hw, -, hholds⟩
  · rw [List.nil_append] at hfits hholds
    exact .inl ⟨hfits, w, hw, hholds.len, hholds.out⟩
  · rw [List.nil_append] at hfull
    refine .inr ⟨hfull, w, hw, ?_⟩
    rw [hholds.out, List.length_append, List.length_drop]
    have := hholds.fits
    omega

end Writer

end Wari.Lib
