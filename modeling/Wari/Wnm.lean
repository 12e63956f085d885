import Mathlib.Data.List.Sort
import Wari.Lib.Bytes

/-!
# The container of a native module

A WNM is a header, a table of sections and their payloads. The offline tool packs one, and the
kernel's loader checks it and finds the sections again. Only the layout is common to the two.

Every access to a buffer may fail here, and `none` is a panic.
-/

namespace Wari.Wnm

open Lib (toLe ofLe readAt writeAt)

/-- `WNM_MAGIC`: the bytes `WNM\0`. -/
def wnmMagic : List (BitVec 8) := [0x57, 0x4E, 0x4D, 0x00]

/-- `WNM_ABI_VERSION`. -/
def wnmAbiVersion : ℕ := 1

/-- `WNM_HEADER_LEN`. -/
def wnmHeaderLen : ℕ := 12

/-- `WNM_SECTION_ENTRY_LEN`. -/
def wnmSectionEntryLen : ℕ := 12

/-- `WNM_MAX_SECTIONS`. -/
def wnmMaxSections : ℕ := 16

/-- The kinds of sections that a container can have. -/
inductive WnmSection where
  /-- native code -/
  | text
  /-- relocation entries -/
  | relocs
  /-- sandbox-safety certificate -/
  | safetyCert
  /-- the original module -/
  | wasm
  deriving DecidableEq, Repr

/-- `kind as u8`, which is never zero. -/
def WnmSection.toU8 : WnmSection → BitVec 8
  | .text => 1
  | .relocs => 2
  | .safetyCert => 3
  | .wasm => 4

/-- Decode a kind byte; `none` is a byte that stands for no kind. -/
def WnmSection.fromU8 (b : BitVec 8) : Option WnmSection :=
  if b = 1 then some .text
  else if b = 2 then some .relocs
  else if b = 3 then some .safetyCert
  else if b = 4 then some .wasm
  else none

/-- A kind as `{:?}` prints it, for the error that names it. -/
def WnmSection.debug : WnmSection → String
  | .text => "Text"
  | .relocs => "Relocs"
  | .safetyCert => "SafetyCert"
  | .wasm => "Wasm"

/-- The outcome of the check: `ok`, or the first thing that is wrong. -/
inductive WnmCheck where
  | ok
  | truncated
  | badMagic
  | badVersion
  | tooManySections
  | badTotalLen
  | sectionTableOverflow
  | unknownSection
  | sectionOutOfBounds
  | duplicateSection
  | missingRequired
  deriving DecidableEq, Repr

/-! ## The encoder

The tool sorts sections by kind and writes a buffer of zeros over. -/

/-- One section to pack, by its kind and its payload. -/
structure Section where
  /-- its kind -/
  kind : WnmSection
  /-- its payload -/
  data : List (BitVec 8)

/-- `sections.sort_by_key(|s| s.kind as u8)`, which keeps the order of sections of one kind. -/
def sortByKind (sections : List Section) : List Section :=
  sections.insertionSort fun a b => a.kind.toU8 ≤ b.kind.toU8

/-- The first of two neighbours of one kind. -/
def duplicate? : List Section → Option WnmSection
  | s :: s' :: sections =>
    if s.kind.toU8 = s'.kind.toU8 then some s.kind else duplicate? (s' :: sections)
  | _ => none

/-- One table entry and its payload: section `i` goes to `off`. -/
def writeSection (out : List (BitVec 8)) (i off : ℕ) (s : Section) : Option (List (BitVec 8)) := do
  let entry := wnmHeaderLen + i * wnmSectionEntryLen
  let out ← writeAt out entry [s.kind.toU8]
  let out ← writeAt out (entry + 4) (toLe 4 off)
  let out ← writeAt out (entry + 8) (toLe 4 s.data.length)
  writeAt out off s.data

/-- The loop over the sections, and the cursor after it. -/
def writeSections (out : List (BitVec 8)) (i off : ℕ) :
    List Section → Option (List (BitVec 8) × ℕ)
  | [] => some (out, off)
  | s :: sections => do
    let out ← writeSection out i off s
    writeSections out (i + 1) (off + s.data.length) sections

/-- Pack sections into a container, in the order of their kinds. `none` is a panic. -/
def encode (sections : List Section) : Option (Except String (List (BitVec 8))) :=
  let sections := sortByKind sections
  match duplicate? sections with
  | some kind => some (.error s!"duplicate WNM section kind {kind.debug}")
  | none =>
    let n := sections.length
    if wnmMaxSections < n then some (.error s!"too many WNM sections: {n} > {wnmMaxSections}")
    else
      let tableLen := n * wnmSectionEntryLen
      let payloadBase := wnmHeaderLen + tableLen
      let payloadTotal := (sections.map fun s => s.data.length).sum
      let totalLen := payloadBase + payloadTotal
      if 2 ^ 32 ≤ totalLen then
        some (.error s!"WNM container {totalLen} bytes exceeds u32 total_len")
      else do
        let out := List.replicate totalLen 0#8
        let out ← writeAt out 0 wnmMagic
        let out ← writeAt out 4 (toLe 2 wnmAbiVersion)
        let out ← writeAt out 6 (toLe 2 n)
        let out ← writeAt out 8 (toLe 4 totalLen)
        let (out, off) ← writeSections out 0 payloadBase sections
        -- the cursor must have come to the end
        if off = totalLen then some (.ok out) else none

/-! ## The decoder

The loader checks everything in one walk before it notes anything in a second. -/

/-- `rd_u16`: two bytes, least significant first. `none` is a read out of bounds. -/
def rdU16 (b : List (BitVec 8)) (i : ℕ) : Option ℕ := (readAt b i 2).map ofLe

/-- `rd_u32`: four bytes, least significant first. `none` is a read out of bounds. -/
def rdU32 (b : List (BitVec 8)) (i : ℕ) : Option ℕ := (readAt b i 4).map ofLe

/-- The walk's check of table entry `i`, with the kinds seen so far. -/
def checkEntry (bytes : List (BitVec 8)) (tableEnd totalLen i : ℕ) (seen : BitVec 8) :
    Option (Except WnmCheck (BitVec 8)) := do
  let base := wnmHeaderLen + i * wnmSectionEntryLen
  let kindByte ← bytes[base]?
  if (WnmSection.fromU8 kindByte).isNone then return .error .unknownSection
  let offset ← rdU32 bytes (base + 4)
  let len ← rdU32 bytes (base + 8)
  if 2 ^ 64 ≤ offset + len then return .error .sectionOutOfBounds
  if offset < tableEnd ∨ totalLen < offset + len then return .error .sectionOutOfBounds
  let bit := 1#8 <<< (kindByte - 1).toNat
  if seen &&& bit ≠ 0 then return .error .duplicateSection
  return .ok (seen ||| bit)

/-- The walk over `n` entries from entry `i` on. -/
def checkEntries (bytes : List (BitVec 8)) (tableEnd totalLen : ℕ) :
    ℕ → ℕ → BitVec 8 → Option (Except WnmCheck (BitVec 8))
  | 0, _, seen => some (.ok seen)
  | n + 1, i, seen => do
    match ← checkEntry bytes tableEnd totalLen i seen with
    | .error e => return .error e
    | .ok seen => checkEntries bytes tableEnd totalLen n (i + 1) seen

/-- `REQUIRED`: the bits of `Text`, `SafetyCert` and `Wasm`. -/
def required : BitVec 8 := (1 <<< 0) ||| (1 <<< 2) ||| (1 <<< 3)

/-- Check the structure of a container: the header, then the table, then the required kinds. -/
def validateHeader (bytes : List (BitVec 8)) : Option WnmCheck := do
  if bytes.length < wnmHeaderLen then return .truncated
  if (← readAt bytes 0 4) ≠ wnmMagic then return .badMagic
  if (← rdU16 bytes 4) ≠ wnmAbiVersion then return .badVersion
  let sectionCount ← rdU16 bytes 6
  if wnmMaxSections < sectionCount then return .tooManySections
  let totalLen ← rdU32 bytes 8
  if bytes.length < totalLen ∨ totalLen < wnmHeaderLen then return .badTotalLen
  let tableEnd := wnmHeaderLen + sectionCount * wnmSectionEntryLen
  if 2 ^ 64 ≤ tableEnd then return .sectionTableOverflow
  if totalLen < tableEnd then return .sectionTableOverflow
  match ← checkEntries bytes tableEnd totalLen sectionCount 0 0 with
  | .error e => return e
  | .ok seen =>
    if seen &&& required ≠ required then return .missingRequired
    return .ok

/-- The offset and the length of a section. -/
abbrev Range := ℕ × ℕ

/-- The ranges that a walk over the table has found, kind by kind. -/
structure Found where
  text : Option Range
  relocs : Option Range
  cert : Option Range
  wasm : Option Range

/-- No range was found yet. -/
def Found.empty : Found := ⟨none, none, none, none⟩

/-- Note the range of a section under its kind. -/
def Found.put (f : Found) (kind : WnmSection) (range : Range) : Found :=
  match kind with
  | .text => { f with text := some range }
  | .relocs => { f with relocs := some range }
  | .safetyCert => { f with cert := some range }
  | .wasm => { f with wasm := some range }

/-- The second walk, over `n` entries from entry `i` on. -/
def collect (bytes : List (BitVec 8)) : ℕ → ℕ → Found → Option Found
  | 0, _, f => some f
  | n + 1, i, f => do
    let base := wnmHeaderLen + i * wnmSectionEntryLen
    let offset ← rdU32 bytes (base + 4)
    let len ← rdU32 bytes (base + 8)
    let kindByte ← bytes[base]?
    match WnmSection.fromU8 kindByte with
    | some kind => collect bytes n (i + 1) (f.put kind (offset, len))
    | none => collect bytes n (i + 1) f

/-- The ranges that the loader needs, with the one that may be missing. -/
structure LoadPlan where
  /-- native code -/
  text : Range
  /-- relocations, where the module has any -/
  relocs : Option Range
  /-- certificate -/
  safetyCert : Range
  /-- the original module -/
  wasm : Range

/-- Check a container, and find its sections, which the check has made sure of. -/
def loadPlan (bytes : List (BitVec 8)) : Option (Except WnmCheck LoadPlan) := do
  let check ← validateHeader bytes
  if check ≠ .ok then return .error check
  let sectionCount ← rdU16 bytes 6
  let f ← collect bytes sectionCount 0 .empty
  match f.text, f.cert, f.wasm with
  | some text, some safetyCert, some wasm => return .ok ⟨text, f.relocs, safetyCert, wasm⟩
  | _, _, _ => return .error .missingRequired

end Wari.Wnm
