import Wari.Lib.Leb128
import Wari.Manifest

/-!
# The walk over the sections

What `read_leb128_u32` reads is a number in at most five bytes, of which it keeps 32 bits. The
sections of a module are said apart from the loop that walks over them, for any way to read
numbers (`Finds`): the parser's, which drops bits, and that of the format, which does not.
-/

namespace Wari.Manifest

open Lib (Bytes Slice Checked Fault)
open Lib.Leb128 (Encodes EncodedAt)

/-! ## Numbers

The format's numbers, and what the reader makes of them. It keeps 32 bits of what may be 35. -/

/-- The number at an index is what 32 bits of an encoding in at most five bytes come to. -/
def LowAt (wasm : Bytes) (off v next : ℕ) : Prop :=
  ∃ n, EncodedAt wasm 5 off n next ∧ v = n % 2 ^ 32

/-- The number at an index, as the format has it: in at most five bytes, and of 32 bits. -/
def U32At (wasm : Bytes) (off v next : ℕ) : Prop := EncodedAt wasm 5 off v next ∧ v < 2 ^ 32

/-- Four bytes with more to come and a last one with more than four bits. -/
def Spills (wasm : Bytes) (off : ℕ) : Prop :=
  (∀ k < 4, ∃ b, wasm[off + k]? = some b ∧ 128 ≤ b.toNat) ∧
    ∃ b, wasm[off + 4]? = some b ∧ 16 ≤ b.toNat ∧ b.toNat < 128

section Loop

variable {wasm : Slice} {acc : BitVec 32} {i k turns : ℕ} {rest : Bytes}

/-- A byte without its high bit is its remainder by 128. -/
theorem toNat_low (b : BitVec 8) : (b &&& 0x7f).toNat = b.toNat % 128 := by
  have hmask : (0x7f : BitVec 8).toNat = 2 ^ 7 - 1 := by decide
  exact Lib.toNat_and_mask b hmask

theorem setWidth_low (b : BitVec 8) :
    (b &&& 0x7f).setWidth 32 = BitVec.ofNat 32 (b.toNat % 128) := by
  apply BitVec.eq_of_toNat_eq
  rw [BitVec.toNat_setWidth, BitVec.toNat_ofNat, toNat_low]

/-- The high bit of a byte is clear where the byte is less than 128. -/
theorem and_high_eq_zero (b : BitVec 8) : b &&& 0x80 = 0 ↔ b.toNat < 128 := by
  revert b
  decide +kernel

/-- What the loop returns after `k` bytes: the groups that are left, above those it has. -/
def LoopReads (wasm : Slice) (turns : ℕ) (acc : BitVec 32) (k i : ℕ) (rest : Bytes) : Prop :=
  (∃ bs n rest', rest = bs ++ rest' ∧ Encodes bs n ∧ bs.length ≤ 5 - k ∧
    readLebFrom wasm turns acc (7 * k) i k =
      .ok (acc ||| BitVec.ofNat 32 n <<< (7 * k), i + bs.length)) ∨
  (readLebFrom wasm turns acc (7 * k) i k = refuse .truncated ∧
    ∀ bs n rest', rest = bs ++ rest' → Encodes bs n → ¬ bs.length ≤ 5 - k)

/-- **The loop** reads an encoding, or refuses where there is none. It takes at most five bytes,
so that the turns suffice. -/
theorem readLebFrom_reads (hlen : wasm.bytes.length < 2 ^ 64) (hk : k ≤ 5) (hturns : 6 - k ≤ turns)
    (hat : wasm.At i rest) : LoopReads wasm turns acc k i rest := by
  induction turns generalizing acc k i rest with
  | zero => omega
  | succ turns ih =>
    have hend := hat.length
    rw [LoopReads, readLebFrom]
    cases rest with
    | nil =>
      rw [List.length_nil] at hend
      rw [if_pos (by omega)]
      refine .inr ⟨rfl, fun bs n rest' heq henc hle => ?_⟩
      obtain ⟨rfl, -⟩ := List.append_eq_nil_iff.mp heq.symm
      exact absurd henc.length_pos (Nat.lt_irrefl 0)
    | cons b rest =>
      rw [List.length_cons] at hend
      rw [if_neg (by omega)]
      by_cases hfull : 5 ≤ k
      · rw [if_pos hfull]
        refine .inr ⟨rfl, fun bs n rest' heq henc hle => ?_⟩
        have := henc.length_pos
        omega
      · have hplus : plus i 1 = .ok (i + 1) := if_pos (by omega)
        have hshl : checkedShl ((b &&& 0x7f).setWidth 32) (7 * k) =
            .ok (BitVec.ofNat 32 (b.toNat % 128) <<< (7 * k)) := by
          rw [checkedShl, if_pos (by omega), setWidth_low]
        rw [if_neg hfull, hat.index]
        simp only [Lib.Checked.ok_bind, hplus, hshl]
        by_cases hlast : b.toNat < 128
        · rw [if_pos ((and_high_eq_zero b).mpr hlast), Nat.mod_eq_of_lt hlast]
          refine .inl ⟨[b], b.toNat, rest, rfl, .last hlast, ?_, rfl⟩
          rw [List.length_singleton]
          omega
        · rw [if_neg fun h => hlast ((and_high_eq_zero b).mp h)]
          have hgroup : b.toNat % 128 = b.toNat - 128 := by
            have := b.isLt
            omega
          have hloop : LoopReads wasm turns (acc ||| BitVec.ofNat 32 (b.toNat % 128) <<< (7 * k))
              (k + 1) (i + 1) rest := ih (by omega) (by omega) hat.of_cons
          rcases hloop with ⟨bs, n, rest', rfl, henc, hle, heq⟩ | ⟨heq, hnone⟩
          · refine .inl ⟨b :: bs, b.toNat - 128 + 128 * n, rest', rfl,
              .more (Nat.not_lt.mp hlast) henc, ?_, ?_⟩
            · rw [List.length_cons]
              omega
            · rw [← hgroup, Lib.Leb128.or_group _ (Nat.mod_lt _ (by decide)), List.length_cons]
              rw [Nat.mul_succ] at heq
              rw [heq]
              congr 2
              omega
          · refine .inr ⟨heq, fun bs n rest' hsplit henc hle => ?_⟩
            cases henc with
            | last h =>
              obtain ⟨rfl, -⟩ := List.cons.inj hsplit
              exact hlast h
            | more h hs =>
              obtain ⟨-, hsplit⟩ := List.cons.inj hsplit
              rw [List.length_cons] at hle
              exact hnone _ _ _ hsplit hs (by omega)

/-- **What `read_leb128_u32` returns**: the number at the index, or a refusal where there is
none. -/
theorem readLeb128U32_cases (wasm : Slice) (hlen : wasm.bytes.length < 2 ^ 64) (off : ℕ) :
    (∃ v next, readLeb128U32 wasm off = .ok (v, next) ∧ LowAt wasm.bytes off v.toNat next) ∨
      (readLeb128U32 wasm off = refuse .truncated ∧
        ∀ v next, ¬ LowAt wasm.bytes off v next) := by
  by_cases hoff : off ≤ wasm.bytes.length
  · have hat : wasm.At off (wasm.bytes.drop off) :=
      ⟨wasm.bytes.take off, (List.take_append_drop _ _).symm, List.length_take_of_le hoff⟩
    have hloop : LoopReads wasm 6 0 0 off (wasm.bytes.drop off) :=
      readLebFrom_reads hlen (Nat.zero_le 5) le_rfl hat
    rcases hloop with ⟨bs, n, rest, hrest, henc, hle, heq⟩ | ⟨heq, hnone⟩
    · refine .inl ⟨_, _, heq, n, ⟨_, bs, rest, ?_, List.length_take_of_le hoff, henc, hle, rfl⟩, ?_⟩
      · rw [← hrest, List.take_append_drop]
      · simp
    · refine .inr ⟨heq, ?_⟩
      rintro v next ⟨n, ⟨front, bs, rest, htext, rfl, henc, hle, -⟩, -⟩
      refine hnone bs n rest ?_ henc hle
      rw [htext, List.drop_left]
  · have heq : readLeb128U32 wasm off = refuse .truncated := if_pos (by omega)
    refine .inr ⟨heq, ?_⟩
    rintro v next ⟨n, henc, -⟩
    have := henc.lt_next
    have := henc.next_le
    omega

theorem readLeb128U32_ok (hlen : wasm.bytes.length < 2 ^ 64) {off next : ℕ} {v : BitVec 32} :
    readLeb128U32 wasm off = .ok (v, next) ↔ LowAt wasm.bytes off v.toNat next := by
  rcases readLeb128U32_cases wasm hlen off with ⟨v', next', heq, n', henc', hv'⟩ | ⟨heq, hnone⟩
  · rw [heq]
    constructor
    · intro h
      obtain ⟨rfl, rfl⟩ := Prod.mk.inj (Except.ok.inj h)
      exact ⟨n', henc', hv'⟩
    · rintro ⟨n, henc, hv⟩
      obtain ⟨rfl, rfl⟩ := henc.unique henc'
      rw [BitVec.eq_of_toNat_eq (hv.trans hv'.symm)]
  · rw [heq]
    exact iff_of_false (fun h => by cases h) (hnone _ _)

end Loop

/-! ## Numbers of 32 bits

Where a number has no more than 32 bits, the reader returns it. -/

section Spills

variable {wasm : Bytes} {off n v next : ℕ}

/-- **A number of more than 32 bits** is one whose fifth byte has more than four. -/
theorem spills_iff (h : EncodedAt wasm 5 off n next) : Spills wasm off ↔ 2 ^ 32 ≤ n := by
  obtain ⟨front, bs, rest, rfl, rfl, henc, hle, -⟩ := h
  have hget : ∀ k, (front ++ (bs ++ rest))[front.length + k]? = (bs ++ rest)[k]? := fun k => by
    rw [List.getElem?_append_right (Nat.le_add_right _ _), Nat.add_sub_cancel_left]
  obtain ⟨init, b, low, rfl, hinit, hb, hlow, rfl⟩ := henc.parts
  rw [List.length_append, List.length_singleton] at hle
  have hlast : ((init ++ [b]) ++ rest)[init.length]? = some b := by
    rw [List.append_assoc, List.getElem?_append_right le_rfl, Nat.sub_self]
    rfl
  rw [Spills]
  simp only [hget]
  constructor
  · rintro ⟨hmore, c, hc, hbits, -⟩
    have hfour : init.length = 4 := by
      by_contra hne
      obtain ⟨d, hd, hhigh⟩ := hmore init.length (by omega)
      rw [hlast] at hd
      obtain rfl := Option.some.inj hd
      omega
    rw [hfour] at hlast
    rw [hlast] at hc
    obtain rfl := Option.some.inj hc
    rw [hfour]
    omega
  · intro hbig
    have hfour : init.length = 4 := by
      by_contra hne
      have hpow : 128 ^ init.length ≤ 128 ^ 3 := Nat.pow_le_pow_right (by decide) (by omega)
      have hmul : 128 ^ init.length * b.toNat ≤ 128 ^ 3 * 127 :=
        Nat.mul_le_mul hpow (by omega)
      omega
    rw [hfour] at hlast hbig hlow
    refine ⟨fun k hk => ?_, b, hlast, by omega, hb⟩
    have hlt : k < init.length := by omega
    refine ⟨init[k], ?_, hinit _ (List.getElem_mem hlt)⟩
    rw [List.append_assoc, List.getElem?_append_left hlt, List.getElem?_eq_getElem hlt]

/-- Such a number is there to be read. -/
theorem Spills.exists_encodedAt (h : Spills wasm off) : ∃ n next, EncodedAt wasm 5 off n next := by
  obtain ⟨hmore, b, hb, -, hlast⟩ := h
  obtain ⟨c, hc, hc'⟩ := hmore 0 (by decide)
  obtain ⟨d, hd, hd'⟩ := hmore 1 (by decide)
  obtain ⟨e, he, he'⟩ := hmore 2 (by decide)
  obtain ⟨f, hf, hf'⟩ := hmore 3 (by decide)
  have hlen : off + 4 < wasm.length := (List.getElem?_eq_some_iff.mp hb).1
  have hdrop : ∀ {k : ℕ} {x : BitVec 8}, wasm[off + k]? = some x →
      wasm.drop (off + k) = x :: wasm.drop (off + k + 1) := fun hx => by
    obtain ⟨hlt, rfl⟩ := List.getElem?_eq_some_iff.mp hx
    exact List.drop_eq_getElem_cons hlt
  refine ⟨_, _, wasm.take off, [c, d, e, f, b], wasm.drop (off + 5), ?_,
    List.length_take_of_le (by omega), .more hc' (.more hd' (.more he' (.more hf' (.last hlast)))),
    le_rfl, rfl⟩
  have hfive : wasm.drop off = [c, d, e, f, b] ++ wasm.drop (off + 5) := by
    have h0 := hdrop hc
    rw [Nat.add_zero, hdrop hd, hdrop he, hdrop hf, hdrop hb] at h0
    exact h0
  rw [← hfive, List.take_append_drop]

/-- Elsewhere the parser reads what the format has. -/
theorem lowAt_iff (h : ¬ Spills wasm off) : LowAt wasm off v next ↔ U32At wasm off v next := by
  constructor
  · rintro ⟨n, henc, rfl⟩
    have hlt : n < 2 ^ 32 := Nat.not_le.mp fun hbig => h ((spills_iff henc).mpr hbig)
    rw [Nat.mod_eq_of_lt hlt]
    exact ⟨henc, hlt⟩
  · rintro ⟨henc, hlt⟩
    exact ⟨v, henc, (Nat.mod_eq_of_lt hlt).symm⟩

theorem U32At.lowAt (h : U32At wasm off v next) : LowAt wasm off v next :=
  ⟨v, h.1, (Nat.mod_eq_of_lt h.2).symm⟩

/-- Where the format has a number, it does not spill. -/
theorem U32At.not_spills (h : U32At wasm off v next) : ¬ Spills wasm off := fun hspills =>
  absurd ((spills_iff h.1).mp hspills) (Nat.not_le.mpr h.2)

theorem LowAt.unique {v' next' : ℕ} (h : LowAt wasm off v next) (h' : LowAt wasm off v' next') :
    v = v' ∧ next = next' := by
  obtain ⟨n, henc, rfl⟩ := h
  obtain ⟨n', henc', rfl⟩ := h'
  obtain ⟨rfl, rfl⟩ := henc.unique henc'
  exact ⟨rfl, rfl⟩

theorem LowAt.bounds (h : LowAt wasm off v next) :
    off < next ∧ next ≤ wasm.length ∧ v < 2 ^ 32 := by
  obtain ⟨n, henc, rfl⟩ := h
  exact ⟨henc.lt_next, henc.next_le, Nat.mod_lt _ (by decide)⟩

end Spills

/-! ## Sections

The walk over sections as a relation, with the way numbers are read as a parameter. So the
parser's walk and that of the format can be compared. -/

/-- **The first custom section of a name**, from a position on: what it has after the name, or
none. `number` tells how numbers are read; the offsets of those that are read come along. -/
inductive Finds (number : ℕ → ℕ → ℕ → Prop) (wasm target : Bytes) :
    ℕ → List ℕ → Option Slice → Prop where
  /-- no more sections -/
  | done {i : ℕ} (h : wasm.length ≤ i) : Finds number wasm target i [] none
  /-- no custom section -/
  | other {i size start : ℕ} {id : BitVec 8} {offs : List ℕ} {found : Option Slice}
      (hid : wasm[i]? = some id) (hne : id ≠ sectionIdCustom) (hsize : number (i + 1) size start)
      (hend : start + size ≤ wasm.length)
      (hrest : Finds number wasm target (start + size) offs found) :
      Finds number wasm target i ((i + 1) :: offs) found
  /-- a custom section of another name -/
  | named {i size start nameLen nameStart : ℕ} {offs : List ℕ} {found : Option Slice}
      (hid : wasm[i]? = some sectionIdCustom) (hsize : number (i + 1) size start)
      (hend : start + size ≤ wasm.length) (hname : number start nameLen nameStart)
      (hin : nameStart + nameLen ≤ start + size)
      (hne : (wasm.take (nameStart + nameLen)).drop nameStart ≠ target)
      (hrest : Finds number wasm target (start + size) offs found) :
      Finds number wasm target i ((i + 1) :: start :: offs) found
  /-- the section -/
  | found {i size start nameLen nameStart : ℕ}
      (hid : wasm[i]? = some sectionIdCustom) (hsize : number (i + 1) size start)
      (hend : start + size ≤ wasm.length) (hname : number start nameLen nameStart)
      (hin : nameStart + nameLen ≤ start + size)
      (heq : (wasm.take (nameStart + nameLen)).drop nameStart = target) :
      Finds number wasm target i [i + 1, start]
        (some ⟨nameStart + nameLen, (wasm.take (start + size)).drop (nameStart + nameLen)⟩)

namespace Finds

variable {number number' : ℕ → ℕ → ℕ → Prop} {wasm target : Bytes} {i : ℕ} {offs offs' : List ℕ}
  {r r' : Option Slice}

/-- Another way to read numbers finds the same, if it reads the same at these offsets. -/
theorem congr (h : Finds number wasm target i offs r)
    (hnumber : ∀ off ∈ offs, ∀ v next, number off v next → number' off v next) :
    Finds number' wasm target i offs r := by
  induction h with
  | done h => exact .done h
  | other hid hne hsize hend _ ih =>
    obtain ⟨hfirst, hrest⟩ := List.forall_mem_cons.mp hnumber
    exact .other hid hne (hfirst _ _ hsize) hend (ih hrest)
  | named hid hsize hend hname hin hne _ ih =>
    obtain ⟨hfirst, hrest⟩ := List.forall_mem_cons.mp hnumber
    obtain ⟨hsecond, hrest⟩ := List.forall_mem_cons.mp hrest
    exact .named hid (hfirst _ _ hsize) hend (hsecond _ _ hname) hin hne (ih hrest)
  | found hid hsize hend hname hin heq =>
    obtain ⟨hfirst, hrest⟩ := List.forall_mem_cons.mp hnumber
    obtain ⟨hsecond, -⟩ := List.forall_mem_cons.mp hrest
    exact .found hid (hfirst _ _ hsize) hend (hsecond _ _ hname) hin heq

/-- Every offset that the walk comes to has a number. -/
theorem reads (h : Finds number wasm target i offs r) :
    ∀ off ∈ offs, ∃ v next, number off v next := by
  induction h with
  | done _ => simp
  | other _ _ hsize _ _ ih => exact List.forall_mem_cons.mpr ⟨⟨_, _, hsize⟩, ih⟩
  | named _ hsize _ hname _ _ _ ih =>
    exact List.forall_mem_cons.mpr ⟨⟨_, _, hsize⟩, List.forall_mem_cons.mpr ⟨⟨_, _, hname⟩, ih⟩⟩
  | found _ hsize _ hname _ _ =>
    exact List.forall_mem_cons.mpr ⟨⟨_, _, hsize⟩, List.forall_mem_singleton.mpr ⟨_, _, hname⟩⟩

/-- What is behind the size of a section: one to be passed over, which what is found lies behind,
or the section to be found. -/
def Behind (number : ℕ → ℕ → ℕ → Prop) (wasm target : Bytes) (i : ℕ) (offs : List ℕ)
    (r : Option Slice) (id : BitVec 8) (size start : ℕ) : Prop :=
  (id ≠ sectionIdCustom ∧ ∃ offs', offs = (i + 1) :: offs' ∧
    Finds number wasm target (start + size) offs' r) ∨
  (id = sectionIdCustom ∧ ∃ nameLen nameStart, number start nameLen nameStart ∧
    nameStart + nameLen ≤ start + size ∧
    (((wasm.take (nameStart + nameLen)).drop nameStart ≠ target ∧
        ∃ offs', offs = (i + 1) :: start :: offs' ∧
          Finds number wasm target (start + size) offs' r) ∨
      ((wasm.take (nameStart + nameLen)).drop nameStart = target ∧ offs = [i + 1, start] ∧
        r = some ⟨nameStart + nameLen, (wasm.take (start + size)).drop (nameStart + nameLen)⟩)))

/-- **What is at a position**: a section, and what is behind its size. -/
theorem step (h : Finds number wasm target i offs r) (hi : i < wasm.length) :
    ∃ id size start, wasm[i]? = some id ∧ number (i + 1) size start ∧
      start + size ≤ wasm.length ∧
      Behind number wasm target i offs r id size start := by
  cases h with
  | done h => omega
  | other hid hne hsize hend hrest =>
    exact ⟨_, _, _, hid, hsize, hend, .inl ⟨hne, _, rfl, hrest⟩⟩
  | named hid hsize hend hname hin hne hrest =>
    exact ⟨_, _, _, hid, hsize, hend, .inr ⟨rfl, _, _, hname, hin, .inl ⟨hne, _, rfl, hrest⟩⟩⟩
  | found hid hsize hend hname hin heq =>
    exact ⟨_, _, _, hid, hsize, hend, .inr ⟨rfl, _, _, hname, hin, .inr ⟨heq, rfl, rfl⟩⟩⟩

/-- The same of a section whose kind and size are known. -/
theorem step_of {id : BitVec 8} {size start : ℕ} (h : Finds number wasm target i offs r)
    (hfun : ∀ {off v next v' next'}, number off v next → number off v' next' →
      v = v' ∧ next = next') (hid : wasm[i]? = some id) (hsize : number (i + 1) size start) :
    start + size ≤ wasm.length ∧
      Behind number wasm target i offs r id size start := by
  obtain ⟨id', size', start', hid', hsize', hstep⟩ := h.step (List.getElem?_eq_some_iff.mp hid).1
  obtain ⟨rfl, rfl⟩ := hfun hsize hsize'
  obtain rfl := Option.some.inj (hid.symm.trans hid')
  exact hstep

/-- **There is one way** to walk over the sections, where there is one to read numbers. -/
theorem unique (h : Finds number wasm target i offs r) (h' : Finds number wasm target i offs' r')
    (hfun : ∀ {off v next v' next'}, number off v next → number off v' next' →
      v = v' ∧ next = next') : offs = offs' ∧ r = r' := by
  induction h generalizing offs' with
  | done hi =>
    cases h' with
    | done => exact ⟨rfl, rfl⟩
    | other hid | named hid | found hid =>
      rw [List.getElem?_eq_none hi] at hid
      cases hid
  | other hid hne hsize hend _ ih =>
    rcases (h'.step_of hfun hid hsize).2 with ⟨-, offs₁, rfl, hrest⟩ | ⟨hcustom, -⟩
    · obtain ⟨rfl, rfl⟩ := ih hrest
      exact ⟨rfl, rfl⟩
    · exact absurd hcustom hne
  | named hid hsize hend hname hin hne _ ih =>
    rcases (h'.step_of hfun hid hsize).2 with
      ⟨hother, -⟩ | ⟨-, nameLen, nameStart, hname', -, hcases⟩
    · exact absurd rfl hother
    · obtain ⟨rfl, rfl⟩ := hfun hname hname'
      rcases hcases with ⟨-, offs₁, rfl, hrest⟩ | ⟨heq, -⟩
      · obtain ⟨rfl, rfl⟩ := ih hrest
        exact ⟨rfl, rfl⟩
      · exact absurd heq hne
  | found hid hsize hend hname hin heq =>
    rcases (h'.step_of hfun hid hsize).2 with
      ⟨hother, -⟩ | ⟨-, nameLen, nameStart, hname', -, hcases⟩
    · exact absurd rfl hother
    · obtain ⟨rfl, rfl⟩ := hfun hname hname'
      rcases hcases with ⟨hne, -⟩ | ⟨-, rfl, rfl⟩
      · exact absurd heq hne
      · exact ⟨rfl, rfl⟩

/-- What was found is a piece of the text. -/
theorem partOf {payload : Slice} (h : Finds number wasm target i offs r) (hr : r = some payload) :
    payload.PartOf ⟨0, wasm⟩ := by
  induction h with
  | done h => cases hr
  | other _ _ _ _ _ ih => exact ih hr
  | named _ _ _ _ _ _ _ ih => exact ih hr
  | @found i size start nameLen nameStart hid hsize hend hname hin heq =>
    obtain rfl := Option.some.inj hr
    have hpart := Slice.partOf_take (s := ⟨0, wasm⟩) hin hend
    rwa [Nat.zero_add] at hpart

end Finds

/-! ## The loop

The loop of the source either ends or goes further up, which is why it ends at all. -/

section Loop

variable {wasm target : Bytes} {i turns : ℕ}

theorem index_eq {s : Slice} {c : BitVec 8} (h : s.bytes[i]? = some c) :
    (s.index i : Parse (BitVec 8)) = .ok c := by
  rw [Slice.index, h]

/-- What one turn of the loop does: it returns the section, or refuses, or goes on further up. -/
def Turn (wasm target : Bytes) (turns i : ℕ) (x : Parse (Option Slice)) : Prop :=
  (∃ offs payload, x = .ok (some payload) ∧
    Finds (LowAt wasm) wasm target i offs (some payload)) ∨
  (∃ e, x = refuse e ∧ ∀ offs r, ¬ Finds (LowAt wasm) wasm target i offs r) ∨
  ∃ j here, i < j ∧ j ≤ wasm.length ∧ x = findFrom ⟨0, wasm⟩ target turns j ∧
    ∀ offs r, Finds (LowAt wasm) wasm target i offs r ↔
      ∃ offs', offs = here ++ offs' ∧ Finds (LowAt wasm) wasm target j offs' r

/-- The part of the loop for a custom section. -/
def customSection (wasm : Slice) (target : Bytes) (turns start secEnd : ℕ) :
    Parse (Option Slice) := do
  let (nameLen, afterNameLen) ← readLeb128U32 wasm start
  let nameEnd ← checkedAdd afterNameLen nameLen.toNat
  if secEnd < nameEnd then refuse .truncated
  else do
    let nameBytes ← wasm.sub afterNameLen nameEnd
    if nameBytes.bytes = target then do
      let payload ← wasm.sub nameEnd secEnd
      return some payload
    else findFrom wasm target turns secEnd

/-- In a custom section the loop looks at the name. -/
theorem customSection_turn {size start : ℕ} (hlen : wasm.length < 2 ^ 63)
    (hid : wasm[i]? = some sectionIdCustom) (hsize : LowAt wasm (i + 1) size start)
    (hend : start + size ≤ wasm.length) :
    Turn wasm target turns i (customSection ⟨0, wasm⟩ target turns start (start + size)) := by
  -- what is found here has a name here
  have hname : ∀ {offs r}, Finds (LowAt wasm) wasm target i offs r →
      ∃ nameLen nameStart, LowAt wasm start nameLen nameStart ∧
        nameStart + nameLen ≤ start + size ∧
        ((wasm.take (nameStart + nameLen)).drop nameStart = target ∨
          ∃ offs', offs = [i + 1, start] ++ offs' ∧
            Finds (LowAt wasm) wasm target (start + size) offs' r) := by
    intro offs r hfinds
    rcases (hfinds.step_of LowAt.unique hid hsize).2 with
      ⟨hne, -⟩ | ⟨-, nameLen, nameStart, hname, hin, hcases⟩
    · exact absurd rfl hne
    · refine ⟨nameLen, nameStart, hname, hin, ?_⟩
      rcases hcases with ⟨-, hrest⟩ | ⟨heq, -⟩
      · exact .inr hrest
      · exact .inl heq
  rw [customSection]
  rcases readLeb128U32_cases ⟨0, wasm⟩ (hlen.trans (by decide)) start with
    ⟨nameLen, nameStart, hread, hnameLen⟩ | ⟨hread, hnone⟩
  · obtain ⟨-, hstart, hsmall⟩ := hnameLen.bounds
    dsimp only at hnameLen hstart
    have hadd : checkedAdd nameStart nameLen.toNat = .ok (nameStart + nameLen.toNat) :=
      if_pos (by omega)
    rw [hread]
    simp only [Lib.Checked.ok_bind, hadd]
    by_cases hin : start + size < nameStart + nameLen.toNat
    · rw [if_pos hin]
      refine .inr (.inl ⟨_, rfl, fun offs r hfinds => ?_⟩)
      obtain ⟨n, next, hsecond, hle, -⟩ := hname hfinds
      obtain ⟨rfl, rfl⟩ := hnameLen.unique hsecond
      omega
    · have hin := Nat.not_lt.mp hin
      have hsub : ((⟨0, wasm⟩ : Slice).sub nameStart (nameStart + nameLen.toNat) : Parse Slice) =
          .ok ⟨0 + nameStart, (wasm.take (nameStart + nameLen.toNat)).drop nameStart⟩ :=
        Slice.sub_ok (Nat.le_add_right _ _) (hin.trans hend)
      have hpayload : ((⟨0, wasm⟩ : Slice).sub (nameStart + nameLen.toNat) (start + size) :
          Parse Slice) = .ok ⟨0 + (nameStart + nameLen.toNat),
            (wasm.take (start + size)).drop (nameStart + nameLen.toNat)⟩ :=
        Slice.sub_ok hin hend
      rw [if_neg (Nat.not_lt.mpr hin), hsub]
      simp only [Lib.Checked.ok_bind, hpayload]
      by_cases heq : (wasm.take (nameStart + nameLen.toNat)).drop nameStart = target
      · rw [if_pos heq, Nat.zero_add]
        exact .inl ⟨_, _, rfl, .found hid hsize hend hnameLen hin heq⟩
      · rw [if_neg heq]
        have hnext := hsize.bounds.1
        refine .inr (.inr ⟨_, [i + 1, start], by omega, hend, rfl, fun offs r => ?_⟩)
        constructor
        · intro hfinds
          obtain ⟨n, next, hsecond, -, heq' | hrest⟩ := hname hfinds
          · obtain ⟨rfl, rfl⟩ := hnameLen.unique hsecond
            exact absurd heq' heq
          · exact hrest
        · rintro ⟨offs', rfl, hrest⟩
          exact .named hid hsize hend hnameLen hin heq hrest
  · rw [hread]
    refine .inr (.inl ⟨.truncated, rfl, fun offs r hfinds => ?_⟩)
    obtain ⟨n, next, hsecond, -⟩ := hname hfinds
    exact hnone _ _ hsecond

/-- **A turn of the loop**: where it goes on, it is further up, and still in the module. -/
theorem findFrom_turn (hlen : wasm.length < 2 ^ 63) (hlt : i < wasm.length) (target : Bytes)
    (turns : ℕ) : Turn wasm target turns i (findFrom ⟨0, wasm⟩ target (turns + 1) i) := by
  rw [findFrom, if_pos hlt]
  have hid : wasm[i]? = some wasm[i] := List.getElem?_eq_getElem hlt
  generalize wasm[i] = id at hid
  have hplus : plus i 1 = .ok (i + 1) := if_pos (by omega)
  rw [index_eq hid]
  simp only [Lib.Checked.ok_bind, hplus]
  rcases readLeb128U32_cases ⟨0, wasm⟩ (hlen.trans (by decide)) (i + 1) with
    ⟨size, start, hread, hsize⟩ | ⟨hread, hnone⟩
  · obtain ⟨hstart, hstart', hsize'⟩ := hsize.bounds
    dsimp only at hsize hstart'
    have hadd : checkedAdd start size.toNat = .ok (start + size.toNat) := if_pos (by omega)
    rw [hread]
    simp only [Lib.Checked.ok_bind, hadd]
    by_cases hend : wasm.length < start + size.toNat
    · rw [if_pos hend]
      refine .inr (.inl ⟨_, rfl, fun offs r hfinds => ?_⟩)
      exact absurd (hfinds.step_of LowAt.unique hid hsize).1 (Nat.not_le.mpr hend)
    · rw [if_neg hend]
      have hend := Nat.not_lt.mp hend
      by_cases hcustom : id = sectionIdCustom
      · subst hcustom
        rw [if_pos rfl]
        exact customSection_turn hlen hid hsize hend
      · rw [if_neg hcustom]
        refine .inr (.inr ⟨_, [i + 1], by omega, hend, rfl, fun offs r => ?_⟩)
        constructor
        · intro hfinds
          rcases (hfinds.step_of LowAt.unique hid hsize).2 with ⟨-, hrest⟩ | ⟨hcustom', -⟩
          · exact hrest
          · exact absurd hcustom' hcustom
        · rintro ⟨offs', rfl, hrest⟩
          exact .other hid hcustom hsize hend hrest
  · rw [hread]
    refine .inr (.inl ⟨.truncated, rfl, fun offs r hfinds => ?_⟩)
    obtain ⟨id', n, next, -, hsecond, -⟩ := hfinds.step hlt
    exact hnone _ _ hsecond

/-- What the loop does from a position on: it finds what there is, or refuses. -/
def LoopFinds (wasm target : Bytes) (turns i : ℕ) : Prop :=
  (∃ offs r, findFrom ⟨0, wasm⟩ target turns i = .ok r ∧
    Finds (LowAt wasm) wasm target i offs r) ∨
  (∃ e, findFrom ⟨0, wasm⟩ target turns i = refuse e ∧
    ∀ offs r, ¬ Finds (LowAt wasm) wasm target i offs r)

/-- **The loop** finds what there is, or refuses. Each turn moves on by a byte at least, so that
the turns suffice. -/
theorem findFrom_finds (hlen : wasm.length < 2 ^ 63) (hi : i ≤ wasm.length)
    (hturns : wasm.length < i + turns) : LoopFinds wasm target turns i := by
  induction turns generalizing i with
  | zero => omega
  | succ turns ih =>
    by_cases hlt : i < wasm.length
    · rcases findFrom_turn hlen hlt target turns with ⟨offs, payload, hloop, hfinds⟩ | hrefused |
        ⟨j, here, hij, hj, hloop, hiff⟩
      · exact .inl ⟨offs, _, hloop, hfinds⟩
      · exact .inr hrefused
      · rw [LoopFinds, hloop]
        rcases ih hj (by omega) with ⟨offs, r, hrest, hfinds⟩ | ⟨e, hrest, hno⟩
        · exact .inl ⟨_, r, hrest, (hiff _ _).mpr ⟨offs, rfl, hfinds⟩⟩
        · refine .inr ⟨e, hrest, fun offs r hfinds => ?_⟩
          obtain ⟨offs', -, hfinds'⟩ := (hiff _ _).mp hfinds
          exact hno _ _ hfinds'
    · rw [LoopFinds, findFrom, if_neg hlt]
      exact .inl ⟨[], none, rfl, .done (Nat.not_lt.mp hlt)⟩

end Loop

/-! ## The module

From the preamble on. -/

/-- How a module begins: the magic, and the version. -/
def Preamble (wasm : Bytes) : Prop := wasm.take wasmPreambleLen = wasmMagic ++ wasmVersion

section Module

variable {wasm target : Bytes} {r : Option Slice} {offs : List ℕ}

/-- **What `find_section_payload` returns**: what is found behind the preamble, or a refusal where
a walk over the sections goes wrong. -/
theorem findSectionPayload_cases (hlen : wasm.length < 2 ^ 63) (target : Bytes) :
    (∃ offs r, findSectionPayload ⟨0, wasm⟩ target = .ok r ∧ Preamble wasm ∧
      Finds (LowAt wasm) wasm target wasmPreambleLen offs r) ∨
    (∃ e, findSectionPayload ⟨0, wasm⟩ target = refuse e ∧
      (Preamble wasm → ∀ offs r, ¬ Finds (LowAt wasm) wasm target wasmPreambleLen offs r)) := by
  rw [findSectionPayload]
  by_cases hshort : wasm.length < wasmPreambleLen
  · rw [if_pos hshort]
    refine .inr ⟨_, rfl, fun hpre => ?_⟩
    have htake := congrArg List.length hpre
    rw [List.length_take, Nat.min_eq_right hshort.le] at htake
    exact absurd htake hshort.ne
  · have hlong := Nat.not_lt.mp hshort
    have hm : ((⟨0, wasm⟩ : Slice).sub 0 4 : Parse Slice) = .ok ⟨0, wasm.take 4⟩ :=
      Slice.sub_ok (Nat.zero_le 4) (le_trans (by decide) hlong)
    have hv : ((⟨0, wasm⟩ : Slice).sub 4 8 : Parse Slice) = .ok ⟨0 + 4, (wasm.take 8).drop 4⟩ :=
      Slice.sub_ok (by decide) hlong
    have hpre : wasm.take wasmPreambleLen = wasm.take 4 ++ (wasm.take 8).drop 4 := by
      rw [← List.take_append_drop 4 (wasm.take wasmPreambleLen), List.take_take]
      rfl
    rw [if_neg hshort, hm]
    simp only [Lib.Checked.ok_bind, hv]
    by_cases hbad : wasm.take 4 ≠ wasmMagic ∨ (wasm.take 8).drop 4 ≠ wasmVersion
    · rw [if_pos hbad]
      refine .inr ⟨_, rfl, fun h => ?_⟩
      rw [Preamble, hpre] at h
      have hfour : (wasm.take 4).length = wasmMagic.length :=
        List.length_take_of_le (le_trans (by decide) hlong)
      obtain ⟨hmagic, hversion⟩ := List.append_inj h hfour
      exact absurd hbad (by simp [hmagic, hversion])
    · rw [if_neg hbad]
      obtain ⟨hmagic, hversion⟩ := not_or.mp hbad
      have hbegin : Preamble wasm := by
        rw [Preamble, hpre, not_not.mp hmagic, not_not.mp hversion]
      have hloop : LoopFinds wasm target wasm.length wasmPreambleLen :=
        findFrom_finds hlen hlong (by rw [wasmPreambleLen]; omega)
      rcases hloop with ⟨offs, r, hloop, hfinds⟩ | ⟨e, hloop, hnone⟩
      · exact .inl ⟨offs, r, hloop, hbegin, hfinds⟩
      · exact .inr ⟨e, hloop, fun _ => hnone⟩

/-- Where the search returns something, it says where, and where it finds nothing, that there is
no such section. -/
theorem findSectionPayload_eq_ok (hlen : wasm.length < 2 ^ 63) :
    findSectionPayload ⟨0, wasm⟩ target = .ok r ↔
      Preamble wasm ∧ ∃ offs, Finds (LowAt wasm) wasm target wasmPreambleLen offs r := by
  rcases findSectionPayload_cases hlen target with
    ⟨offs, r', hcode, hpre, hfinds⟩ | ⟨e, hcode, hnone⟩
  · rw [hcode]
    constructor
    · intro h
      obtain rfl := Except.ok.inj h
      exact ⟨hpre, offs, hfinds⟩
    · rintro ⟨-, offs', hfinds'⟩
      rw [(hfinds.unique hfinds' LowAt.unique).2]
  · rw [hcode]
    refine iff_of_false (fun h => by cases h) ?_
    rintro ⟨hpre, offs, hfinds⟩
    exact hnone hpre offs r hfinds

/-- **The walk of the format** is the parser's one, if no number on it spills. -/
theorem Finds.u32At_iff (h : Finds (LowAt wasm) wasm target wasmPreambleLen offs r)
    (offs' : List ℕ) (r' : Option Slice) :
    Finds (U32At wasm) wasm target wasmPreambleLen offs' r' ↔
      offs' = offs ∧ r' = r ∧ ∀ off ∈ offs, ¬ Spills wasm off := by
  constructor
  · intro h'
    obtain ⟨rfl, rfl⟩ := (h'.congr fun off _ v next => U32At.lowAt).unique h LowAt.unique
    refine ⟨rfl, rfl, fun off hoff => ?_⟩
    obtain ⟨v, next, hnumber⟩ := h'.reads off hoff
    exact hnumber.not_spills
  · rintro ⟨rfl, rfl, hspills⟩
    exact h.congr fun off hoff v next => (lowAt_iff (hspills off hoff)).mp

/-! ## Exactness

The reader is exact at every index at which no number spills, and at no other. -/

/-- The reader returns a number at an index where the format has it, and only there. -/
def ExactAt (wasm : Bytes) (off : ℕ) : Prop :=
  ∀ (v : BitVec 32) next,
    readLeb128U32 ⟨0, wasm⟩ off = .ok (v, next) ↔ U32At wasm off v.toNat next

/-- **The reader is exact** where no number spills: the bits of the fifth byte that do not fit are
dropped by the shift. -/
theorem exactAt_iff (hlen : wasm.length < 2 ^ 63) (off : ℕ) :
    ExactAt wasm off ↔ ¬ Spills wasm off := by
  have hread : ∀ (v : BitVec 32) next,
      readLeb128U32 ⟨0, wasm⟩ off = .ok (v, next) ↔ LowAt wasm off v.toNat next :=
    fun v next => readLeb128U32_ok (hlen.trans (by decide))
  constructor
  · intro hexact hspills
    obtain ⟨n, next, henc⟩ := hspills.exists_encodedAt
    have hlow : LowAt wasm off (BitVec.ofNat 32 n).toNat next := ⟨n, henc, BitVec.toNat_ofNat _ _⟩
    exact ((hexact _ _).mp ((hread _ _).mpr hlow)).not_spills hspills
  · exact fun hspills v next => (hread v next).trans (lowAt_iff hspills)

theorem readLeb128U32_safe (hlen : wasm.length < 2 ^ 63) (off : ℕ) :
    (readLeb128U32 ⟨0, wasm⟩ off).Safe := by
  intro f hf
  rcases readLeb128U32_cases ⟨0, wasm⟩ (hlen.trans (by decide)) off with
    ⟨v, next, hread, -⟩ | ⟨hread, -⟩
  · rw [hread] at hf
    cases hf
  · rw [hread] at hf
    exact ⟨_, (Except.error.inj hf).symm⟩

/-- **Section boundaries.** The reader returns the number of the format, or refuses, at every
index at which no number spills, and at no other. Where the parser comes to the end of its walk,
the format has a walk if no number on this one spills, and it is this one; a walk of the format
is always found. -/
theorem boundaries_exact {wasm : Bytes} (hlen : wasm.length < 2 ^ 63) :
    (∀ off, (readLeb128U32 ⟨0, wasm⟩ off).Safe ∧ (ExactAt wasm off ↔ ¬ Spills wasm off)) ∧
      (∀ r, findSectionPayload ⟨0, wasm⟩ sectionName = .ok r →
        ∃ offs, Finds (LowAt wasm) wasm sectionName wasmPreambleLen offs r ∧
          ∀ offs' r', Finds (U32At wasm) wasm sectionName wasmPreambleLen offs' r' ↔
            offs' = offs ∧ r' = r ∧ ∀ off ∈ offs, ¬ Spills wasm off) ∧
      ∀ offs r, Preamble wasm → Finds (U32At wasm) wasm sectionName wasmPreambleLen offs r →
        findSectionPayload ⟨0, wasm⟩ sectionName = .ok r := by
  refine ⟨fun off => ⟨readLeb128U32_safe hlen off, exactAt_iff hlen off⟩, fun r hcode => ?_,
    fun offs r hpre hfinds => ?_⟩
  · obtain ⟨-, offs, hfinds⟩ := (findSectionPayload_eq_ok hlen).mp hcode
    exact ⟨offs, hfinds, hfinds.u32At_iff⟩
  · exact (findSectionPayload_eq_ok hlen).mpr
      ⟨hpre, offs, hfinds.congr fun off _ v next => U32At.lowAt⟩

/-- A section whose size is written as 2^32, and behind it a manifest section. -/
def spilling : Bytes :=
  wasmMagic ++ wasmVersion ++ [1, 0x80, 0x80, 0x80, 0x80, 0x10] ++ [0, 21, 20] ++ sectionName

/-- The number spills at the size, and not at the next one. -/
theorem boundaries_exact_spilling : spilling.length < 2 ^ 63 ∧ Spills spilling 9 ∧
    ¬ ExactAt spilling 9 ∧ ¬ Spills spilling 15 ∧ ExactAt spilling 15 := by
  have hlen : spilling.length < 2 ^ 63 := by decide
  have hfour : ∀ k < 4, spilling[9 + k]? = some 0x80 := by decide
  have hspills : Spills spilling 9 :=
    ⟨fun k hk => ⟨_, hfour k hk, by decide⟩, 0x10, by decide, by decide, by decide⟩
  have hone : ¬ Spills spilling 15 := by
    rintro ⟨hmore, -⟩
    obtain ⟨b, hb, hhigh⟩ := hmore 0 (by decide)
    have hsize : spilling[15 + 0]? = some 21 := by decide
    obtain rfl := Option.some.inj (hsize.symm.trans hb)
    exact absurd hhigh (by decide)
  obtain ⟨hread, -⟩ := boundaries_exact hlen
  exact ⟨hlen, hspills, fun h => (hread 9).2.mp h hspills, hone, (hread 15).2.mpr hone⟩

/-- The parser takes the size for 0 and returns the manifest section; the format has a section
there that is longer than the module. -/
theorem boundaries_exact_fails :
    readLeb128U32 ⟨0, spilling⟩ 9 = .ok (0, 14) ∧ EncodedAt spilling 5 9 (2 ^ 32) 14 ∧
      findSectionPayload ⟨0, spilling⟩ sectionName = .ok (some ⟨37, []⟩) ∧
      ∀ offs r, ¬ Finds (U32At spilling) spilling sectionName wasmPreambleLen offs r := by
  have hsize : EncodedAt spilling 5 9 (2 ^ 32) 14 :=
    ⟨spilling.take 9, [0x80, 0x80, 0x80, 0x80, 0x10], spilling.drop 14, by decide, by decide,
      .more (by decide) (.more (by decide) (.more (by decide) (.more (by decide)
        (.last (by decide))))), by decide, rfl⟩
  refine ⟨rfl, hsize, rfl, fun offs r h => ?_⟩
  obtain ⟨-, size, start, -, hnumber, -, -⟩ := h.step (by decide)
  obtain ⟨rfl, -⟩ := hsize.unique hnumber.1
  exact absurd hnumber.2 (by decide)

end Module

end Wari.Manifest
