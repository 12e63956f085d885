import Mathlib.Algebra.GroupWithZero.Nat
import Mathlib.Data.BitVec
import Wari.Lib.Slice

/-!
# LEB128

Unsigned numbers in groups of seven bits, the lowest first: every byte but the last has its
high bit set. An encoding need not be the shortest. A reader adds the groups up in a word of
fixed width; bits past the width are lost.
-/

namespace Wari.Lib.Leb128

/-- The bytes are an encoding of the number. -/
inductive Encodes : Bytes → ℕ → Prop where
  /-- the last byte -/
  | last {b : BitVec 8} (h : b.toNat < 128) : Encodes [b] b.toNat
  /-- a byte with more to come -/
  | more {b : BitVec 8} {bs : Bytes} {v : ℕ} (h : 128 ≤ b.toNat) (hs : Encodes bs v) :
      Encodes (b :: bs) (b.toNat - 128 + 128 * v)

namespace Encodes

variable {bs bs' rest rest' : Bytes} {v v' : ℕ}

theorem length_pos (h : Encodes bs v) : 0 < bs.length := by
  cases h with
  | last h => exact Nat.one_pos
  | more h hs => exact Nat.succ_pos _

/-- A number encoded in `n` bytes has at most `7 * n` bits. -/
theorem lt (h : Encodes bs v) : v < 128 ^ bs.length := by
  induction h with
  | last h => simpa using h
  | @more b bs v h hs ih =>
    have hb := b.isLt
    rw [List.length_cons, pow_succ']
    omega

/-- The last byte is above all others, and the only one below 128. -/
theorem parts (h : Encodes bs v) : ∃ init b low, bs = init ++ [b] ∧ (∀ c ∈ init, 128 ≤ c.toNat) ∧
    b.toNat < 128 ∧ low < 128 ^ init.length ∧ v = low + 128 ^ init.length * b.toNat := by
  induction h with
  | @last b h => exact ⟨[], b, 0, rfl, by simp, h, Nat.one_pos, by simp⟩
  | @more c bs v h hs ih =>
    obtain ⟨init, b, low, rfl, hinit, hb, hlow, rfl⟩ := ih
    have hc := c.isLt
    refine ⟨c :: init, b, c.toNat - 128 + 128 * low, rfl, List.forall_mem_cons.mpr ⟨h, hinit⟩, hb,
      ?_, ?_⟩
    · rw [List.length_cons, pow_succ']
      omega
    · rw [List.length_cons, pow_succ', Nat.mul_add, Nat.mul_assoc, Nat.add_assoc]

/-- **Where an encoding ends** is told by its bytes, and so is the number. -/
theorem unique (h : Encodes bs v) (h' : Encodes bs' v') (heq : bs ++ rest = bs' ++ rest') :
    bs = bs' ∧ v = v' := by
  induction h generalizing bs' v' with
  | last h =>
    cases h' with
    | last h' =>
      obtain ⟨rfl, -⟩ := List.cons.inj heq
      exact ⟨rfl, rfl⟩
    | more h' hs' =>
      obtain ⟨rfl, -⟩ := List.cons.inj heq
      omega
  | more h hs ih =>
    cases h' with
    | last h' =>
      obtain ⟨rfl, -⟩ := List.cons.inj heq
      omega
    | more h' hs' =>
      obtain ⟨rfl, hrest⟩ := List.cons.inj heq
      obtain ⟨rfl, rfl⟩ := ih hs' hrest
      exact ⟨rfl, rfl⟩

end Encodes

/-- At an index of a text is an encoding of the number in at most `k` bytes, which ends before
`next`. -/
def EncodedAt (text : Bytes) (k off n next : ℕ) : Prop :=
  ∃ front bs rest, text = front ++ (bs ++ rest) ∧ front.length = off ∧ Encodes bs n ∧
    bs.length ≤ k ∧ next = off + bs.length

namespace EncodedAt

variable {text : Bytes} {k off n n' next next' : ℕ}

/-- There is one number at an index, and one place where it ends. -/
theorem unique (h : EncodedAt text k off n next) (h' : EncodedAt text k off n' next') :
    n = n' ∧ next = next' := by
  obtain ⟨front, bs, rest, htext, rfl, henc, -, rfl⟩ := h
  obtain ⟨front', bs', rest', htext', hfront, henc', -, rfl⟩ := h'
  obtain ⟨rfl, hrest⟩ := List.append_inj (htext.symm.trans htext') hfront.symm
  obtain ⟨rfl, rfl⟩ := henc.unique henc' hrest
  exact ⟨rfl, rfl⟩

theorem lt_next (h : EncodedAt text k off n next) : off < next := by
  obtain ⟨front, bs, rest, -, -, henc, -, rfl⟩ := h
  have := henc.length_pos
  omega

theorem next_le (h : EncodedAt text k off n next) : next ≤ text.length := by
  obtain ⟨front, bs, rest, rfl, rfl, -, -, rfl⟩ := h
  simp only [List.length_append]
  omega

end EncodedAt

/-! ## Adding up

The groups of seven bits as the reader adds them up, in a word that may be too short for them. -/

section Word

variable {w : ℕ}

/-- The lowest group, and the others above it. -/
theorem ofNat_group {a : ℕ} (ha : a < 128) (m : ℕ) :
    BitVec.ofNat w (a + 128 * m) = BitVec.ofNat w a ||| BitVec.ofNat w m <<< 7 := by
  have hor : a + 128 * m = a ||| m <<< 7 := by
    rw [Nat.or_comm, ← Nat.shiftLeft_add_eq_or_of_lt (i := 7) ha, Nat.shiftLeft_eq]
    omega
  have hshift : BitVec.ofNat w (m <<< 7) = BitVec.ofNat w m <<< 7 := by
    apply BitVec.eq_of_toNat_eq
    rw [BitVec.toNat_ofNat, BitVec.toNat_shiftLeft, BitVec.toNat_ofNat, Nat.shiftLeft_eq,
      Nat.shiftLeft_eq, Nat.mod_mul_mod]
  rw [hor, BitVec.ofNat_or, hshift]

/-- A word with the groups below `n` in it takes the next one. -/
theorem or_group (acc : BitVec w) {a : ℕ} (ha : a < 128) (m n : ℕ) :
    acc ||| BitVec.ofNat w (a + 128 * m) <<< n =
      acc ||| BitVec.ofNat w a <<< n ||| BitVec.ofNat w m <<< (n + 7) := by
  rw [ofNat_group ha, BitVec.shiftLeft_or_distrib, ← BitVec.shiftLeft_add, Nat.add_comm 7 n,
    BitVec.or_assoc]

end Word

end Wari.Lib.Leb128
