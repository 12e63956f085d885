import Wari.Lib.Bytes
import Wari.Lib.Trie
import Wari.PageAlloc

/-!
# Page tables

The three-level tables of Sv39. An entry holds the number of a page and ten flags; `walk`
goes from the root down the three indices of an address, and stops at a leaf. Read as a
store of tables (`view`), it is `Lib.Tables.leafAt`.
-/

namespace Wari

/-! ## Entries

Flags in the ten low bits, the page number above them. -/

/-- A set of flags: the ten low bits of an entry. -/
structure PteFlags where
  bits : BitVec 64
  low : bits.toNat < 1024
  deriving DecidableEq

namespace PteFlags

/-- The entry is valid; without this flag it maps nothing. -/
def VALID : PteFlags := ⟨1#64 <<< 0, by decide⟩
/-- readable -/
def READ : PteFlags := ⟨1#64 <<< 1, by decide⟩
/-- writable -/
def WRITE : PteFlags := ⟨1#64 <<< 2, by decide⟩
/-- executable -/
def EXECUTE : PteFlags := ⟨1#64 <<< 3, by decide⟩
/-- a global mapping -/
def GLOBAL : PteFlags := ⟨1#64 <<< 5, by decide⟩
/-- accessed -/
def ACCESS : PteFlags := ⟨1#64 <<< 6, by decide⟩
/-- written to -/
def DIRTY : PteFlags := ⟨1#64 <<< 7, by decide⟩

/-- Both sets of flags together. -/
def union (f g : PteFlags) : PteFlags :=
  ⟨f.bits ||| g.bits, by
    rw [BitVec.toNat_or]
    exact Nat.or_lt_two_pow (n := 10) f.low g.low⟩

/-- Is all of `g` in `f`? -/
def contains (f g : PteFlags) : Bool := f.bits &&& g.bits = g.bits

/-- The flags among some bits: the ten lowest ones, and no others. -/
def fromBits (bits : BitVec 64) : PteFlags :=
  ⟨bits &&& 0x3FF#64, by
    rw [BitVec.toNat_and]
    exact Nat.lt_of_le_of_lt Nat.and_le_right (by decide)⟩

/-- Whether an entry with these flags maps a page. -/
def isLeaf (f : PteFlags) : Bool :=
  f.bits &&& (READ.bits ||| WRITE.bits ||| EXECUTE.bits) ≠ 0#64

end PteFlags

/-- Kernel text: readable and executable, and never writable. -/
def kernelRx : PteFlags :=
  (((PteFlags.VALID.union .READ).union .EXECUTE).union .ACCESS).union .GLOBAL

/-- Kernel read-only data: neither writable nor executable. -/
def kernelRo : PteFlags := ((PteFlags.VALID.union .READ).union .ACCESS).union .GLOBAL

/-- Kernel data: readable and writable, and never executable. -/
def kernelRw : PteFlags :=
  ((((PteFlags.VALID.union .READ).union .WRITE).union .ACCESS).union .DIRTY).union .GLOBAL

/-- An entry of a table, which is one word of 64 bits. -/
structure Pte where
  bits : BitVec 64
  deriving DecidableEq

namespace Pte

/-- The entry that maps the page at `physAddr`. -/
def new (physAddr : BitVec 64) (flags : PteFlags) : Pte :=
  let ppn := (physAddr >>> 12) &&& 0x00FFFFFFFFFFFFFF#64
  ⟨(ppn <<< 10) ||| flags.bits⟩

/-- The entry that points to the table at `tablePhysAddr`. -/
def branch (tablePhysAddr : BitVec 64) : Pte :=
  let ppn := (tablePhysAddr >>> 12) &&& 0x00FFFFFFFFFFFFFF#64
  ⟨(ppn <<< 10) ||| PteFlags.VALID.bits⟩

def isValid (pte : Pte) : Bool := pte.bits &&& PteFlags.VALID.bits ≠ 0#64

def flags (pte : Pte) : PteFlags := .fromBits pte.bits

def isLeaf (pte : Pte) : Bool := pte.isValid && pte.flags.isLeaf

def isBranch (pte : Pte) : Bool := pte.isValid && !pte.flags.isLeaf

/-- The page number in an entry, as wide as the mask of the source makes it. -/
def ppn (pte : Pte) : BitVec 64 := (pte.bits >>> 10) &&& 0x00FFFFFFFFFFFFFF#64

/-- The address of the page that an entry names. -/
def physAddr (pte : Pte) : BitVec 64 := pte.ppn <<< 12

end Pte

/-! ## Addresses

Three indices of nine bits and an offset of twelve. -/

/-- The three indices of an address, from the root down, and its offset in the page. -/
def vaParts (va : BitVec 64) : BitVec 64 × BitVec 64 × BitVec 64 × BitVec 64 :=
  let vpn2 := (va >>> 30) &&& 0x1FF#64
  let vpn1 := (va >>> 21) &&& 0x1FF#64
  let vpn0 := (va >>> 12) &&& 0x1FF#64
  let offset := va &&& 0xFFF#64
  (vpn2, vpn1, vpn0, offset)

/-! ## The walk

From the root down, one index at a time. It takes a leaf where it finds one and goes on where the
entry is a branch. -/

/-- What a successful walk finds: the physical address, and the flags of the entry. -/
structure WalkResult where
  phys : BitVec 64
  flags : PteFlags
  deriving DecidableEq

/-- The walk from one table, with the levels still to go, counted from the top. -/
def walkFrom (read : BitVec 64 → BitVec 64) (offset : BitVec 64) :
    List (ℕ × BitVec 64) → BitVec 64 → Option WalkResult
  | [], _ => none
  | (levelFromTop, idx) :: rest, table =>
    let pte : Pte := ⟨read (table + idx * 8#64)⟩
    if !pte.isValid then none
    else if pte.isLeaf then
      -- only pages of the smallest size
      if levelFromTop ≠ 2 then none else some ⟨pte.physAddr + offset, pte.flags⟩
    else walkFrom read offset rest pte.physAddr

/-- Resolve an address from the table at `root`. -/
def walk (root va : BitVec 64) (read : BitVec 64 → BitVec 64) : Option WalkResult :=
  let (vpn2, vpn1, vpn0, offset) := vaParts va
  walkFrom read offset [(0, vpn2), (1, vpn1), (2, vpn0)] root

/-! ## What an entry holds

What was put into an entry, read back out of it. -/

/-- The address of a page, by its number. -/
def pageAddr (page : BitVec 52) : BitVec 64 := page ++ 0#12

/-- The page that an address is in. -/
def pageOf (addr : BitVec 64) : BitVec 52 := addr.extractLsb' 12 52

theorem toNat_pageAddr (page : BitVec 52) : (pageAddr page).toNat = page.toNat * 4096 := by
  rw [pageAddr, BitVec.toNat_append]
  simp [Nat.shiftLeft_eq]

theorem toNat_pageOf (addr : BitVec 64) : (pageOf addr).toNat = addr.toNat / 4096 := by
  rw [pageOf, BitVec.extractLsb'_toNat, Nat.shiftRight_eq_div_pow]
  exact Nat.mod_eq_of_lt (by omega)

@[simp] theorem pageOf_pageAddr (page : BitVec 52) : pageOf (pageAddr page) = page := by
  apply BitVec.eq_of_toNat_eq
  rw [toNat_pageOf, toNat_pageAddr]
  omega

theorem pageAddr_pageOf {addr : BitVec 64} (h : addr.toNat % pageSize = 0) :
    pageAddr (pageOf addr) = addr := by
  apply BitVec.eq_of_toNat_eq
  rw [toNat_pageAddr, toNat_pageOf]
  simp only [pageSize] at h
  omega

namespace Pte

variable (page : BitVec 52) (flags : PteFlags)

/-- The number an entry is: the page, and below it the flags. -/
theorem toNat_new :
    (new (pageAddr page) flags).bits.toNat = page.toNat * 1024 + flags.bits.toNat := by
  have hmask : (0x00FFFFFFFFFFFFFF#64).toNat = 2 ^ 56 - 1 := by decide
  have hppn : ((pageAddr page >>> 12) &&& 0x00FFFFFFFFFFFFFF#64).toNat = page.toNat := by
    rw [Lib.toNat_and_mask _ hmask, BitVec.toNat_ushiftRight, toNat_pageAddr,
      Nat.shiftRight_eq_div_pow]
    omega
  have hshift : (((pageAddr page >>> 12) &&& 0x00FFFFFFFFFFFFFF#64) <<< 10).toNat =
      page.toNat <<< 10 := by
    rw [BitVec.toNat_shiftLeft, hppn, Nat.shiftLeft_eq]
    exact Nat.mod_eq_of_lt (by omega)
  change ((((pageAddr page >>> 12) &&& 0x00FFFFFFFFFFFFFF#64) <<< 10) ||| flags.bits).toNat = _
  rw [BitVec.toNat_or, hshift, ← Nat.shiftLeft_add_eq_or_of_lt flags.low, Nat.shiftLeft_eq]

/-- **What was put into an entry** comes out of it, flags and page number apart from each other.
-/
theorem flags_new : (new (pageAddr page) flags).flags = flags := by
  have hbits : (new (pageAddr page) flags).flags.bits = flags.bits := by
    apply BitVec.eq_of_toNat_eq
    have hmask : (0x3FF#64).toNat = 2 ^ 10 - 1 := by decide
    change ((new (pageAddr page) flags).bits &&& 0x3FF#64).toNat = _
    rw [Lib.toNat_and_mask _ hmask, toNat_new]
    have := flags.low
    omega
  rcases flags with ⟨bits, low⟩
  rw [PteFlags.mk.injEq]
  exact hbits

theorem physAddr_new : (new (pageAddr page) flags).physAddr = pageAddr page := by
  apply BitVec.eq_of_toNat_eq
  have hmask : (0x00FFFFFFFFFFFFFF#64).toNat = 2 ^ 56 - 1 := by decide
  have hlow := flags.low
  rw [physAddr, ppn, BitVec.toNat_shiftLeft, Lib.toNat_and_mask _ hmask, BitVec.toNat_ushiftRight,
    toNat_new, toNat_pageAddr, Nat.shiftRight_eq_div_pow, Nat.shiftLeft_eq]
  omega

/-- Whether an entry is valid is told by its flags. -/
theorem isValid_eq (pte : Pte) : pte.isValid = pte.flags.contains .VALID := by
  have hflags : pte.flags.bits &&& PteFlags.VALID.bits = pte.bits &&& PteFlags.VALID.bits := by
    change pte.bits &&& 0x3FF#64 &&& 1#64 = pte.bits &&& 1#64
    rw [BitVec.and_assoc]
    rfl
  rw [isValid, PteFlags.contains, hflags, decide_eq_decide]
  change pte.bits &&& 1#64 ≠ 0#64 ↔ pte.bits &&& 1#64 = 1#64
  rw [BitVec.and_one_eq_setWidth_ofBool_getLsbD]
  rcases pte.bits.getLsbD 0 <;> decide

/-- An entry for a table is one with no flag but that it is valid. -/
theorem branch_eq (addr : BitVec 64) : branch addr = new addr .VALID := rfl

end Pte

/-! ## A store of tables

Memory as a store of tables: each slot has nothing, another table, or a leaf. The walk is then the
lookup of the store. -/

/-- What a slot of a table holds: nothing, another table, or an entry for a page. -/
def slotOf (pte : Pte) : Lib.Slot (BitVec 52) Pte :=
  if !pte.isValid then .empty
  else if pte.isLeaf then .leaf pte
  else .branch (pageOf pte.physAddr)

/-- The tables in a memory of 64-bit words. -/
def view (read : BitVec 64 → BitVec 64) : Lib.Tables (BitVec 52) (BitVec 9) Pte :=
  fun page i => slotOf ⟨read (pageAddr page + i.setWidth 64 * 8#64)⟩

/-- Flags of an entry that maps a page. -/
def PteFlags.Maps (flags : PteFlags) : Prop :=
  flags.contains .VALID = true ∧ flags.isLeaf = true

theorem slotOf_new (page : BitVec 52) {flags : PteFlags} (h : flags.Maps) :
    slotOf (.new (pageAddr page) flags) = .leaf (.new (pageAddr page) flags) := by
  have hvalid : (Pte.new (pageAddr page) flags).isValid = true := by
    rw [Pte.isValid_eq, Pte.flags_new, h.1]
  have hleaf : (Pte.new (pageAddr page) flags).isLeaf = true := by
    rw [Pte.isLeaf, hvalid, Pte.flags_new, h.2]
    rfl
  rw [slotOf, hvalid, hleaf]
  rfl

theorem slotOf_branch (page : BitVec 52) : slotOf (.branch (pageAddr page)) = .branch page := by
  have hvalid : (Pte.new (pageAddr page) .VALID).isValid = true := by
    rw [Pte.isValid_eq, Pte.flags_new]
    rfl
  have hleaf : (Pte.new (pageAddr page) .VALID).isLeaf = false := by
    rw [Pte.isLeaf, hvalid, Pte.flags_new]
    rfl
  rw [Pte.branch_eq, slotOf, hvalid, hleaf, Pte.physAddr_new, pageOf_pageAddr]
  rfl

/-- The indices of an address, from the root down. -/
def index2 (va : BitVec 64) : BitVec 9 := va.extractLsb' 30 9
def index1 (va : BitVec 64) : BitVec 9 := va.extractLsb' 21 9
def index0 (va : BitVec 64) : BitVec 9 := va.extractLsb' 12 9

/-- Masking a shifted address is cutting its bits out. -/
theorem shift_and_mask (va : BitVec 64) (n : ℕ) :
    (va >>> n) &&& 0x1FF#64 = (va.extractLsb' n 9).setWidth 64 := by
  have hmask : (0x1FF#64).toNat = 2 ^ 9 - 1 := by decide
  apply BitVec.eq_of_toNat_eq
  rw [Lib.toNat_and_mask _ hmask, BitVec.toNat_setWidth, BitVec.extractLsb'_toNat,
    BitVec.toNat_ushiftRight]
  exact (Nat.mod_eq_of_lt (by omega)).symm

theorem vaParts_eq (va : BitVec 64) :
    vaParts va = ((index2 va).setWidth 64, (index1 va).setWidth 64, (index0 va).setWidth 64,
      va &&& 0xFFF#64) := by
  rw [vaParts, shift_and_mask, shift_and_mask, shift_and_mask]
  rfl

/-- What a slot says of the entry in it. -/
theorem slotOf_cases (pte : Pte) :
    pte.isValid = false ∧ slotOf pte = .empty ∨
    pte.isValid = true ∧ pte.isLeaf = true ∧ slotOf pte = .leaf pte ∨
    pte.isValid = true ∧ pte.isLeaf = false ∧ slotOf pte = .branch (pageOf pte.physAddr) := by
  rw [slotOf]
  rcases hvalid : pte.isValid <;> rcases hleaf : pte.isLeaf <;> simp

/-- The address of the page of an entry is at a page boundary. -/
theorem Pte.pageAddr_physAddr (pte : Pte) : pageAddr (pageOf pte.physAddr) = pte.physAddr := by
  apply pageAddr_pageOf
  rw [physAddr, BitVec.toNat_shiftLeft, Nat.shiftLeft_eq, pageSize]
  omega

section Walk

variable (read : BitVec 64 → BitVec 64) (offset : BitVec 64) (page : BitVec 52)

/-- Above the last level, a walk goes on where the slot branches. -/
theorem walkFrom_branch {level : ℕ} (hlevel : level ≠ 2) (i : BitVec 9)
    (rest : List (ℕ × BitVec 64)) :
    walkFrom read offset ((level, i.setWidth 64) :: rest) (pageAddr page) =
      (Lib.Tables.child? (view read page i)).bind fun b =>
        walkFrom read offset rest (pageAddr b) := by
  rw [walkFrom, view]
  rcases slotOf_cases ⟨read (pageAddr page + i.setWidth 64 * 8#64)⟩ with
    ⟨hvalid, hslot⟩ | ⟨hvalid, hleaf, hslot⟩ | ⟨hvalid, hleaf, hslot⟩
  · rw [hslot, hvalid]
    rfl
  · rw [hslot, hvalid, hleaf]
    simp only [Bool.not_true, Bool.false_eq_true, if_false, if_true, if_pos hlevel]
    rfl
  · rw [hslot, hvalid, hleaf]
    simp only [Bool.not_true, Bool.false_eq_true, if_false, Lib.Tables.child?, Option.bind_some,
      Pte.pageAddr_physAddr]

/-- At the last level it ends at a leaf. -/
theorem walkFrom_leaf (i : BitVec 9) :
    walkFrom read offset [(2, i.setWidth 64)] (pageAddr page) =
      (Lib.Tables.leaf? (view read page i)).map fun pte => ⟨pte.physAddr + offset, pte.flags⟩ := by
  rw [walkFrom, view]
  rcases slotOf_cases ⟨read (pageAddr page + i.setWidth 64 * 8#64)⟩ with
    ⟨hvalid, hslot⟩ | ⟨hvalid, hleaf, hslot⟩ | ⟨hvalid, hleaf, hslot⟩
  · rw [hslot, hvalid]
    rfl
  · rw [hslot, hvalid, hleaf]
    rfl
  · rw [hslot, hvalid, hleaf]
    rfl

end Walk

/-- **The walk** finds the leaf of the store, at the path that the three parts of the address are.
-/
theorem walk_eq (read : BitVec 64 → BitVec 64) (page : BitVec 52) (va : BitVec 64) :
    walk (pageAddr page) va read =
      ((view read).leafAt page [index2 va, index1 va] (index0 va)).map fun pte =>
        ⟨pte.physAddr + (va &&& 0xFFF#64), pte.flags⟩ := by
  rw [walk, vaParts_eq]
  simp only
  rw [walkFrom_branch _ _ _ (by decide), Lib.Tables.leafAt, Lib.Tables.tableAt_cons,
    Option.bind_assoc, Option.map_bind]
  congr 1
  funext b
  change _ = Option.map _ (((view read).tableAt b [index1 va]).bind _)
  rw [walkFrom_branch _ _ _ (by decide), Lib.Tables.tableAt_cons, Option.bind_assoc,
    Option.map_bind]
  congr 1
  funext c
  exact walkFrom_leaf _ _ _ _

end Wari
