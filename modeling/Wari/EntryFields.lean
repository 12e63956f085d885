import Wari.PageTable

/-!
# The fields of entries and of `satp`

An entry of a table has 44 bits for the number of a page, and the ten above are reserved;
`satp` has 44 as well, below the address space and the mode. The mask in front of each field has
56 ones, so that only an address below `2 ^ 56` stays within it.
-/

namespace Wari

/-! ## The register

`satp` as the source puts it together, by shifts and a disjunction. -/

/-- The mode of Sv39. -/
def satpSv39 : BitVec 64 := 8#64

/-- The value of `satp` for the table at `rootTablePhys`. -/
def makeSatp (rootTablePhys : BitVec 64) (asid : BitVec 16) : BitVec 64 :=
  let ppn := (rootTablePhys >>> 12) &&& 0x00FFFFFFFFFFFFFF#64
  (satpSv39 <<< 60) ||| (asid.setWidth 64 <<< 44) ||| ppn

/-! ## The fields

What the hardware makes of the two words, field by field. -/

/-- Bits 10 to 53 of an entry: the physical page number. -/
def Pte.ppnField (pte : Pte) : BitVec 44 := pte.bits.extractLsb' 10 44

/-- Bits 54 to 63 of an entry, which are to be zero. -/
def Pte.reserved (pte : Pte) : BitVec 10 := pte.bits.extractLsb' 54 10

/-- Bits 60 to 63 of `satp`: the mode of translation. -/
def satpMode (satp : BitVec 64) : BitVec 4 := satp.extractLsb' 60 4

/-- Bits 44 to 59 of `satp`: the address space identifier. -/
def satpAsid (satp : BitVec 64) : BitVec 16 := satp.extractLsb' 44 16

/-- Bits 0 to 43 of `satp`: the page number of the root table. -/
def satpPpn (satp : BitVec 64) : BitVec 44 := satp.extractLsb' 0 44

/-- An entry is in its fields: nothing is in the reserved bits, and the page number is what is in
the others. Hardware takes a reserved bit that is set for a page fault. -/
structure Pte.InFields (pte : Pte) : Prop where
  reserved : pte.reserved = 0#10
  ppn : pte.ppn = pte.ppnField.setWidth 64

/-- `satp` is in its fields: each holds what was to be put into it. -/
structure SatpInFields (rootTablePhys : BitVec 64) (asid : BitVec 16) : Prop where
  mode : satpMode (makeSatp rootTablePhys asid) = 8#4
  space : satpAsid (makeSatp rootTablePhys asid) = asid
  ppn : (satpPpn (makeSatp rootTablePhys asid)).setWidth 64 = rootTablePhys >>> 12

/-- Whatever is built for an address is in its fields. -/
structure InFields (physAddr : BitVec 64) : Prop where
  new : ∀ flags, (Pte.new physAddr flags).InFields
  branch : (Pte.branch physAddr).InFields
  satp : ∀ asid, SatpInFields physAddr asid

/-! ## Entries

An address below `2 ^ 56` has a page number of 44 bits. From there on the mask of the source,
which has 56 bits, lets more through. -/

section Entry

variable (addr : BitVec 64) (flags : PteFlags)

/-- An entry depends on the page of the address only. -/
theorem Pte.new_pageOf : Pte.new addr flags = Pte.new (pageAddr (pageOf addr)) flags := by
  have hpage : pageAddr (pageOf addr) >>> 12 = addr >>> 12 := by
    apply BitVec.eq_of_toNat_eq
    rw [BitVec.toNat_ushiftRight, BitVec.toNat_ushiftRight, toNat_pageAddr, toNat_pageOf,
      Nat.shiftRight_eq_div_pow, Nat.shiftRight_eq_div_pow]
    omega
  rw [Pte.new, Pte.new, hpage]

theorem Pte.toNat_bits : (Pte.new addr flags).bits.toNat =
    addr.toNat / 4096 * 1024 + flags.bits.toNat := by
  rw [new_pageOf, toNat_new, toNat_pageOf]

theorem Pte.toNat_reserved : (Pte.new addr flags).reserved.toNat = addr.toNat / 2 ^ 56 := by
  have hlow := flags.low
  rw [reserved, BitVec.extractLsb'_toNat, toNat_bits, Nat.shiftRight_eq_div_pow]
  omega

theorem Pte.toNat_ppn : (Pte.new addr flags).ppn.toNat = addr.toNat / 4096 := by
  have hlow := flags.low
  have hmask : (0x00FFFFFFFFFFFFFF#64).toNat = 2 ^ 56 - 1 := by decide
  rw [ppn, Lib.toNat_and_mask _ hmask, BitVec.toNat_ushiftRight, toNat_bits,
    Nat.shiftRight_eq_div_pow]
  omega

theorem Pte.toNat_ppnField :
    (Pte.new addr flags).ppnField.toNat = addr.toNat / 4096 % 2 ^ 44 := by
  have hlow := flags.low
  rw [ppnField, BitVec.extractLsb'_toNat, toNat_bits, Nat.shiftRight_eq_div_pow]
  omega

/-- **An entry** is in its fields for an address below `2 ^ 56`, and for no other. -/
theorem Pte.inFields_iff_lt : (Pte.new addr flags).InFields ↔ addr.toNat < 2 ^ 56 := by
  constructor
  · rintro ⟨hreserved, -⟩
    have hzero := toNat_reserved addr flags
    rw [hreserved] at hzero
    have : (0#10).toNat = 0 := rfl
    omega
  · intro h
    refine ⟨BitVec.eq_of_toNat_eq ?_, BitVec.eq_of_toNat_eq ?_⟩
    · rw [toNat_reserved]
      exact Nat.div_eq_of_lt h
    · rw [toNat_ppn, BitVec.toNat_setWidth, toNat_ppnField]
      omega

end Entry

/-! ## The register and the fields together

The same bound decides for the register, since the page number is put below the address space
there. -/

section Satp

variable {addr : BitVec 64} (asid : BitVec 16)

/-- The number `satp` is: the mode, the address space and the page, none of them in the way of
another. -/
theorem toNat_makeSatp (h : addr.toNat < 2 ^ 56) :
    (makeSatp addr asid).toNat = 2 ^ 63 + (asid.toNat * 2 ^ 44 + addr.toNat / 4096) := by
  have hpage : addr.toNat / 4096 < 2 ^ 44 := by omega
  have hfits : asid.toNat * 2 ^ 44 + addr.toNat / 4096 < 2 ^ 60 := by omega
  have hword : asid.toNat * 2 ^ 44 < 2 ^ 64 :=
    ((Nat.le_add_right _ _).trans_lt hfits).trans (by decide)
  have hmask : (0x00FFFFFFFFFFFFFF#64).toNat = 2 ^ 56 - 1 := by decide
  have hppn : ((addr >>> 12) &&& 0x00FFFFFFFFFFFFFF#64).toNat = addr.toNat / 4096 := by
    rw [Lib.toNat_and_mask _ hmask, BitVec.toNat_ushiftRight, Nat.shiftRight_eq_div_pow]
    omega
  have hasid : (asid.setWidth 64 <<< 44).toNat = asid.toNat <<< 44 := by
    rw [BitVec.toNat_shiftLeft, BitVec.toNat_setWidth_of_le (by decide), Nat.shiftLeft_eq,
      Nat.mod_eq_of_lt hword]
  have hmode : (satpSv39 <<< 60).toNat = 8 <<< 60 := by decide
  have hlow : asid.toNat <<< 44 ||| addr.toNat / 4096 =
      asid.toNat * 2 ^ 44 + addr.toNat / 4096 := by
    rw [← Nat.shiftLeft_add_eq_or_of_lt hpage, Nat.shiftLeft_eq]
  change ((satpSv39 <<< 60) ||| (asid.setWidth 64 <<< 44) |||
    ((addr >>> 12) &&& 0x00FFFFFFFFFFFFFF#64)).toNat = _
  rw [BitVec.or_assoc, BitVec.toNat_or, BitVec.toNat_or, hmode, hasid, hppn, hlow,
    ← Nat.shiftLeft_add_eq_or_of_lt hfits, Nat.shiftLeft_eq]
  omega

theorem satpInFields (h : addr.toNat < 2 ^ 56) : SatpInFields addr asid := by
  have hsatp := toNat_makeSatp asid h
  refine ⟨BitVec.eq_of_toNat_eq ?_, BitVec.eq_of_toNat_eq ?_, BitVec.eq_of_toNat_eq ?_⟩
  · rw [satpMode, BitVec.extractLsb'_toNat, hsatp, Nat.shiftRight_eq_div_pow]
    have : (8#4).toNat = 8 := rfl
    omega
  · rw [satpAsid, BitVec.extractLsb'_toNat, hsatp, Nat.shiftRight_eq_div_pow]
    omega
  · rw [BitVec.toNat_setWidth, satpPpn, BitVec.extractLsb'_toNat, hsatp,
      Nat.shiftRight_eq_div_pow, BitVec.toNat_ushiftRight, Nat.shiftRight_eq_div_pow]
    omega

end Satp

/-- The address is read back: from an entry for it, and from `satp`. -/
structure ReadBack (addr : BitVec 64) : Prop where
  new : ∀ flags, (Pte.new addr flags).physAddr = addr
  branch : (Pte.branch addr).physAddr = addr
  satp : ∀ asid, (satpPpn (makeSatp addr asid)).setWidth 64 <<< 12 = addr

theorem readBack {addr : BitVec 64} (haligned : addr.toNat % pageSize = 0)
    (h : addr.toNat < 2 ^ 56) : ReadBack addr := by
  have hnew : ∀ flags, (Pte.new addr flags).physAddr = addr := fun flags => by
    have hphys := Pte.physAddr_new (pageOf addr) flags
    rwa [pageAddr_pageOf haligned] at hphys
  refine ⟨hnew, hnew .VALID, fun asid => ?_⟩
  rw [(satpInFields asid h).ppn]
  apply BitVec.eq_of_toNat_eq
  rw [BitVec.toNat_shiftLeft, BitVec.toNat_ushiftRight, Nat.shiftRight_eq_div_pow,
    Nat.shiftLeft_eq]
  rw [pageSize] at haligned
  omega

/-- **Field containment.** What is built for an address is in its fields exactly where the
address is below `2 ^ 56`, and an aligned one is then read back. -/
theorem inFields_iff (addr : BitVec 64) :
    (InFields addr ↔ addr.toNat < 2 ^ 56) ∧
      (addr.toNat % pageSize = 0 → addr.toNat < 2 ^ 56 → ReadBack addr) := by
  refine ⟨⟨fun h => ?_, fun h => ⟨fun flags => ?_, ?_, fun asid => satpInFields asid h⟩⟩, readBack⟩
  · exact (Pte.inFields_iff_lt addr .VALID).mp (h.new .VALID)
  · exact (Pte.inFields_iff_lt addr flags).mpr h
  · exact (Pte.inFields_iff_lt addr .VALID).mpr h

/-- The page at `2 ^ 56` puts a bit into the reserved ones, and into the address space. -/
theorem inFields_page : ¬ ∀ addr, InFields addr := by
  intro hall
  have hreserved := (hall 0x0100000000000000#64).branch.reserved
  exact absurd hreserved (by decide)

end Wari
