import Mathlib.Algebra.Order.Ring.Nat
import Mathlib.Data.List.Basic
import Mathlib.Tactic.Ring

/-!
# Bytes

Little-endian encodings of fixed width, and reading and writing a run of bytes
in a buffer.
-/

namespace Wari.Lib

/-! ## Little-endian numbers

Numbers in a given number of bytes, the least significant first, and back. -/

/-- The `n` low bytes of `v`, least significant first. -/
def toLe : ℕ → ℕ → List (BitVec 8)
  | 0, _ => []
  | n + 1, v => BitVec.ofNat 8 v :: toLe n (v / 256)

/-- The number with the given bytes, least significant first. -/
def ofLe : List (BitVec 8) → ℕ
  | [] => 0
  | b :: bs => b.toNat + 256 * ofLe bs

/-- A mask of ones keeps the low bits. -/
theorem toNat_and_mask {w k : ℕ} (x : BitVec w) {mask : BitVec w} (hmask : mask.toNat = 2 ^ k - 1) :
    (x &&& mask).toNat = x.toNat % 2 ^ k := by
  rw [BitVec.toNat_and, hmask, Nat.and_two_pow_sub_one_eq_mod]

/-- The low bits are clear in the multiples of a power of two. -/
theorem and_low_eq_zero {w : ℕ} (x : BitVec w) {k : ℕ} (hk : k ≤ w) :
    x &&& BitVec.ofNat w (2 ^ k - 1) = 0 ↔ x.toNat % 2 ^ k = 0 := by
  have hle : 2 ^ k ≤ 2 ^ w := Nat.pow_le_pow_right (by decide) hk
  have hpos : 0 < 2 ^ k := Nat.two_pow_pos k
  have hmask : (BitVec.ofNat w (2 ^ k - 1)).toNat = 2 ^ k - 1 := by
    rw [BitVec.toNat_ofNat, Nat.mod_eq_of_lt (by omega)]
  rw [← BitVec.toNat_inj, toNat_and_mask x hmask]
  rfl

@[simp] theorem length_toLe (n v : ℕ) : (toLe n v).length = n := by
  induction n generalizing v with
  | zero => rfl
  | succ n ih => rw [toLe, List.length_cons, ih]

/-- Decoding an encoding gives the number back, up to the width. -/
theorem ofLe_toLe (n v : ℕ) : ofLe (toLe n v) = v % 256 ^ n := by
  induction n generalizing v with
  | zero => rw [toLe, ofLe, pow_zero, Nat.mod_one]
  | succ n ih => rw [toLe, ofLe, ih, BitVec.toNat_ofNat, pow_succ' 256, Nat.mod_mul]

theorem ofLe_lt (bs : List (BitVec 8)) : ofLe bs < 256 ^ bs.length := by
  induction bs with
  | nil => exact Nat.one_pos
  | cons b bs ih =>
    rw [ofLe, List.length_cons, pow_succ']
    omega

/-! ## Buffers

Reads and writes at an offset, which fail where they lead out of the buffer. -/

/-- The `n` bytes at `ptr`, where the buffer has them. -/
def readAt (mem : List (BitVec 8)) (ptr n : ℕ) : Option (List (BitVec 8)) :=
  if ptr + n ≤ mem.length then some ((mem.drop ptr).take n) else none

/-- The buffer with `bs` written at `ptr`, where there is room. -/
def writeAt (mem : List (BitVec 8)) (ptr : ℕ) (bs : List (BitVec 8)) : Option (List (BitVec 8)) :=
  if ptr + bs.length ≤ mem.length then
    some (mem.take ptr ++ bs ++ mem.drop (ptr + bs.length))
  else none

/-- What was read is as long as was asked for. -/
theorem length_readAt {mem bs : List (BitVec 8)} {ptr n : ℕ} (h : readAt mem ptr n = some bs) :
    bs.length = n := by
  rw [readAt] at h
  split at h
  · obtain rfl := Option.some.inj h
    rw [List.length_take, List.length_drop]
    omega
  · cases h

theorem writeAt_isSome {mem : List (BitVec 8)} {ptr : ℕ} {bs : List (BitVec 8)} :
    (writeAt mem ptr bs).isSome = true ↔ ptr + bs.length ≤ mem.length := by
  rw [writeAt]
  split <;> simp [*]

/-- A write does not resize the buffer. -/
theorem length_writeAt {mem mem' : List (BitVec 8)} {ptr : ℕ} {bs : List (BitVec 8)}
    (h : writeAt mem ptr bs = some mem') : mem'.length = mem.length := by
  rw [writeAt] at h
  split at h
  · obtain rfl := Option.some.inj h
    simp only [List.length_append, List.length_take, List.length_drop]
    omega
  · cases h

/-- **A byte after a write**: what was written there, or else what was there. -/
theorem getElem?_writeAt {mem mem' : List (BitVec 8)} {ptr : ℕ} {bs : List (BitVec 8)}
    (h : writeAt mem ptr bs = some mem') (j : ℕ) :
    mem'[j]? = if ptr ≤ j ∧ j < ptr + bs.length then bs[j - ptr]? else mem[j]? := by
  rw [writeAt] at h
  split at h
  · rename_i hle
    obtain rfl := Option.some.inj h
    have hptr : (mem.take ptr).length = ptr := by
      rw [List.length_take]
      omega
    rw [List.append_assoc, List.getElem?_append, hptr]
    by_cases hbefore : j < ptr
    · rw [if_pos hbefore, List.getElem?_take_of_lt hbefore, if_neg (by omega)]
    · rw [if_neg hbefore, List.getElem?_append]
      by_cases hin : j < ptr + bs.length
      · rw [if_pos (by omega), if_pos (by omega)]
      · rw [if_neg (by omega), if_neg (by omega), List.getElem?_drop]
        congr 1
        omega
  · cases h

/-- A read of a part of the buffer. -/
theorem readAt_middle {mem bs rest : List (BitVec 8)} (front : List (BitVec 8)) {ptr n : ℕ}
    (hmem : mem = front ++ (bs ++ rest)) (hptr : ptr = front.length) (hn : n = bs.length) :
    readAt mem ptr n = some bs := by
  have hroom : ptr + n ≤ mem.length := by
    rw [hmem, List.length_append, List.length_append]
    omega
  rw [readAt, if_pos hroom, hmem, hptr, List.drop_left, hn, List.take_left]

/-- A write to a part of the buffer. -/
theorem writeAt_middle {mem bs' rest : List (BitVec 8)} (front bs : List (BitVec 8)) {ptr : ℕ}
    (hmem : mem = front ++ (bs ++ rest)) (hptr : ptr = front.length)
    (hlen : bs.length = bs'.length) : writeAt mem ptr bs' = some (front ++ (bs' ++ rest)) := by
  have hroom : ptr + bs'.length ≤ mem.length := by
    rw [hmem, List.length_append, List.length_append]
    omega
  have hrest : ptr + bs'.length = (front ++ bs).length := by
    rw [List.length_append]
    omega
  rw [writeAt, if_pos hroom, hrest, hmem, ← List.append_assoc front bs, List.drop_left,
    List.append_assoc front bs, hptr, List.take_left, List.append_assoc]

/-- What was written is what is read, at the same place and length. -/
theorem readAt_writeAt {mem mem' : List (BitVec 8)} {ptr : ℕ} {bs : List (BitVec 8)}
    (h : writeAt mem ptr bs = some mem') : readAt mem' ptr bs.length = some bs := by
  rw [writeAt] at h
  split at h
  · rename_i hle
    obtain rfl := Option.some.inj h
    have hptr : ptr = (mem.take ptr).length := by
      rw [List.length_take]
      omega
    exact readAt_middle _ (List.append_assoc ..) hptr rfl
  · cases h

end Wari.Lib
