import Wari.Lib.Bytes
import Wari.Lib.Checked

/-!
# Driver manifests

A module carries its manifest in a custom section: a header, then what the module declares to
export, then what it declares to import, in records of fixed size. The parser walks the
sections up to the first of that name and hands out slices of the module. It indexes, so it
might fault; positions are `usize` of 64 bits.
-/

namespace Wari.Manifest

open Lib (Bytes Slice Checked Fault bind_ok ascii ofLe)

/-! ## The interface

The numbers and names of the interface, as the header file of the drivers has them. -/

/-- `MAGIC`, that is "WDM" and a NUL. -/
def magic : Bytes := [0x57, 0x44, 0x4D, 0x00]

def manifestAbiVersion : ℕ := 2

def sectionName : Bytes := ascii "wari_driver_manifest".toList

def nameMax : ℕ := 32

def moduleMax : ℕ := 24

/-- What a module is, as its manifest declares it. -/
inductive DriverKind where
  | uart
  | net
  | block
  | tier1App
  deriving DecidableEq, Repr

def DriverKind.fromRaw : ℕ → Option DriverKind
  | 1 => some .uart
  | 2 => some .net
  | 3 => some .block
  | 4 => some .tier1App
  | _ => none

/-- The signatures a manifest can declare: parameters, then the result. -/
inductive FuncSig where
  | unitUnit
  | u32xU32I32
  | u32I32
  | u32U32
  | u64I32
  | unitU64
  | u32x5I32
  | u32x3I32
  | u32x4I32
  | u32Unit
  | unitI32
  deriving DecidableEq, Repr

def FuncSig.fromRaw (v : BitVec 8) : Option FuncSig :=
  match v.toNat with
  | 1 => some .unitUnit
  | 2 => some .u32xU32I32
  | 3 => some .u32I32
  | 4 => some .u32U32
  | 5 => some .u64I32
  | 6 => some .unitU64
  | 7 => some .u32x5I32
  | 8 => some .u32x3I32
  | 9 => some .u32x4I32
  | 10 => some .u32Unit
  | 11 => some .unitI32
  | _ => none

/-- Types of values that occur in these signatures. -/
inductive WasmValType where
  | i32
  | i64
  deriving DecidableEq, Repr

/-- What WebAssembly sees of a signature: the types of its parameters and of its results. -/
structure WasmSigShape where
  params : List WasmValType
  results : List WasmValType
  deriving DecidableEq, Repr

def FuncSig.wasmShape : FuncSig → WasmSigShape
  | .unitUnit => ⟨[], []⟩
  | .u32xU32I32 => ⟨[.i32, .i32], [.i32]⟩
  | .u32I32 => ⟨[.i32], [.i32]⟩
  | .u32U32 => ⟨[.i32], [.i32]⟩
  | .u64I32 => ⟨[.i64], [.i32]⟩
  | .unitU64 => ⟨[], [.i64]⟩
  | .u32x5I32 => ⟨[.i32, .i32, .i32, .i32, .i32], [.i32]⟩
  | .u32x3I32 => ⟨[.i32, .i32, .i32], [.i32]⟩
  | .u32x4I32 => ⟨[.i32, .i32, .i32, .i32], [.i32]⟩
  | .u32Unit => ⟨[.i32], []⟩
  | .unitI32 => ⟨[], [.i32]⟩

inductive DriverManifestError where
  | missing
  | truncated
  | badMagic
  | unsupportedAbiVersion
  | unknownKind
  | wrongKind
  | unknownSig
  | exportMismatch
  | missingHostFn
  deriving DecidableEq, Repr

/-! ## Records

Records have a fixed size and no padding that is not written, so a record is its bytes. -/

structure ManifestHeader where
  magic : Bytes
  abiVersion : ℕ
  kind : ℕ
  exportCount : ℕ
  importCount : ℕ
  flags : ℕ
  deriving DecidableEq, Repr

structure ExportDecl where
  /-- filled up with NULs -/
  name : Bytes
  sig : BitVec 8
  pad : Bytes
  deriving DecidableEq, Repr

structure ImportDecl where
  /-- filled up with NULs, as the name is -/
  module : Bytes
  name : Bytes
  sig : BitVec 8
  pad : Bytes
  deriving DecidableEq, Repr

/-- `size_of::<ManifestHeader>()` -/
def headerSize : ℕ := 16

/-- `size_of::<ExportDecl>()` -/
def exportDeclSize : ℕ := nameMax + 4

/-- `size_of::<ImportDecl>()` -/
def importDeclSize : ℕ := moduleMax + nameMax + 4

/-- The header, cut out of its bytes at the offsets of the layout. -/
def ManifestHeader.ofBytes (bs : Bytes) : ManifestHeader where
  magic := bs.take 4
  abiVersion := ofLe ((bs.drop 4).take 2)
  kind := ofLe ((bs.drop 6).take 2)
  exportCount := ofLe ((bs.drop 8).take 2)
  importCount := ofLe ((bs.drop 10).take 2)
  flags := ofLe ((bs.drop 12).take 4)

/-- A declared export, cut out of its bytes at the offsets of the layout. -/
def ExportDecl.ofBytes (bs : Bytes) : ExportDecl where
  name := bs.take nameMax
  sig := bs.getD nameMax 0
  pad := (bs.drop (nameMax + 1)).take 3

/-- A declared import, cut out of its bytes at the offsets of the layout. -/
def ImportDecl.ofBytes (bs : Bytes) : ImportDecl where
  module := bs.take moduleMax
  name := (bs.drop moduleMax).take nameMax
  sig := bs.getD (moduleMax + nameMax) 0
  pad := (bs.drop (moduleMax + nameMax + 1)).take 3

/-- `n` records of one size, one after the other. -/
def records {α : Type} (size : ℕ) (ofBytes : Bytes → α) : ℕ → Bytes → List α
  | 0, _ => []
  | n + 1, bs => ofBytes (bs.take size) :: records size ofBytes n (bs.drop size)

/-- A manifest in a module, as slices of it. -/
structure DriverManifestView where
  header : Slice
  exports : Slice
  imports : Slice
  deriving DecidableEq, Repr

namespace DriverManifestView

/-- The fields of the header, read from its bytes. -/
def head (view : DriverManifestView) : ManifestHeader := .ofBytes view.header.bytes

/-- The declared exports, as many as the header counts. -/
def exportDecls (view : DriverManifestView) : List ExportDecl :=
  records exportDeclSize .ofBytes view.head.exportCount view.exports.bytes

/-- The declared imports, as many as the header counts. -/
def importDecls (view : DriverManifestView) : List ImportDecl :=
  records importDeclSize .ofBytes view.head.importCount view.imports.bytes

def kind (view : DriverManifestView) : Except DriverManifestError DriverKind :=
  match DriverKind.fromRaw view.head.kind with
  | some kind => .ok kind
  | none => .error .unknownKind

end DriverManifestView

/-! ## The parser

The parser computes with indices and could go wrong in an index or in a sum, so each step of it
may fault. A fault is a panic, an error is a refusal. -/

/-- A program of the parser, which may be refused, and which is wrong if it reads out of bounds or
spins. -/
abbrev Parse (α : Type) : Type := Checked DriverManifestError α

/-- Refuse the input with an error of the parser's own. -/
def refuse {α : Type} (e : DriverManifestError) : Parse α := .error (.refused e)

def wasmMagic : Bytes := [0x00, 0x61, 0x73, 0x6d]

def wasmVersion : Bytes := [0x01, 0x00, 0x00, 0x00]

def wasmPreambleLen : ℕ := 8

def sectionIdCustom : BitVec 8 := 0

/-- `i + n`. One that wraps is taken for an index outside of every slice. -/
def plus (i n : ℕ) : Parse ℕ := if i + n < 2 ^ 64 then .ok (i + n) else .error .outside

/-- `i.checked_add(n)`: an overflow means that the input is truncated. -/
def checkedAdd (i n : ℕ) : Parse ℕ := if i + n < 2 ^ 64 then .ok (i + n) else refuse .truncated

/-- `n.checked_mul(size)`: an overflow means that the input is truncated. -/
def checkedMul (n size : ℕ) : Parse ℕ :=
  if n * size < 2 ^ 64 then .ok (n * size) else refuse .truncated

/-- `chunk.checked_shl(shift)`: bits may go, but the shift is less than 32. -/
def checkedShl (chunk : BitVec 32) (shift : ℕ) : Parse (BitVec 32) :=
  if shift < 32 then .ok (chunk <<< shift) else refuse .truncated

/-- The loop of `read_leb128_u32`. Running out of turns is an outcome of its own, so that
termination is proved and not assumed. -/
def readLebFrom (wasm : Slice) : ℕ → BitVec 32 → ℕ → ℕ → ℕ → Parse (BitVec 32 × ℕ)
  | 0, _, _, _, _ => .error .spins
  | turns + 1, result, shift, i, bytesRead =>
    if wasm.bytes.length ≤ i then refuse .truncated
    else if 5 ≤ bytesRead then refuse .truncated
    else do
      let b ← wasm.index i
      let i ← plus i 1
      let part ← checkedShl ((b &&& 0x7f).setWidth 32) shift
      let result := result ||| part
      if b &&& 0x80 = 0 then return (result, i)
      else readLebFrom wasm turns result (shift + 7) i (bytesRead + 1)

/-- The number at an index, and the index after it. -/
def readLeb128U32 (wasm : Slice) (off : ℕ) : Parse (BitVec 32 × ℕ) :=
  readLebFrom wasm 6 0 0 off 0

/-- The loop of `find_section_payload`, over the sections from the position `i` on. -/
def findFrom (wasm : Slice) (target : Bytes) : ℕ → ℕ → Parse (Option Slice)
  | 0, _ => .error .spins
  | turns + 1, i =>
    if i < wasm.bytes.length then do
      let id ← wasm.index i
      let i ← plus i 1
      let (secSize, i) ← readLeb128U32 wasm i
      let secEnd ← checkedAdd i secSize.toNat
      if wasm.bytes.length < secEnd then refuse .truncated
      else if id = sectionIdCustom then do
        let (nameLen, afterNameLen) ← readLeb128U32 wasm i
        let nameEnd ← checkedAdd afterNameLen nameLen.toNat
        if secEnd < nameEnd then refuse .truncated
        else do
          let nameBytes ← wasm.sub afterNameLen nameEnd
          if nameBytes.bytes = target then do
            let payload ← wasm.sub nameEnd secEnd
            return some payload
          else findFrom wasm target turns secEnd
      else findFrom wasm target turns secEnd
    else return none

/-- What the first custom section of a name has after the name. -/
def findSectionPayload (wasm : Slice) (target : Bytes) : Parse (Option Slice) :=
  if wasm.bytes.length < wasmPreambleLen then refuse .truncated
  else do
    let m ← wasm.sub 0 4
    let v ← wasm.sub 4 8
    if m.bytes ≠ wasmMagic ∨ v.bytes ≠ wasmVersion then refuse .missing
    else findFrom wasm target wasm.bytes.length wasmPreambleLen

/-- The manifest in a payload: the header is checked first, then the lengths of the two tables. -/
def parsePayload (payload : Slice) : Parse DriverManifestView :=
  if payload.bytes.length < headerSize then refuse .truncated
  else do
    let header ← payload.sub 0 headerSize
    let head := ManifestHeader.ofBytes header.bytes
    if head.magic ≠ magic then refuse .badMagic
    else if head.abiVersion ≠ manifestAbiVersion then refuse .unsupportedAbiVersion
    else do
      let exportsSize ← checkedMul head.exportCount exportDeclSize
      let importsOff ← checkedAdd headerSize exportsSize
      let importsSize ← checkedMul head.importCount importDeclSize
      let total ← checkedAdd importsOff importsSize
      if payload.bytes.length < total then refuse .truncated
      else do
        let exports ← payload.sub headerSize importsOff
        let imports ← payload.sub importsOff total
        let view : DriverManifestView := ⟨header, exports, imports⟩
        if view.exportDecls.any fun e => (FuncSig.fromRaw e.sig).isNone then refuse .unknownSig
        else if view.importDecls.any fun im => (FuncSig.fromRaw im.sig).isNone then
          refuse .unknownSig
        else return view

/-- **The manifest of a module**: the first custom section of that name, parsed. -/
def parseFromWasm (wasm : Bytes) : Parse DriverManifestView := do
  match ← findSectionPayload ⟨0, wasm⟩ sectionName with
  | some payload => parsePayload payload
  | none => refuse .missing

/-- **Every signature** of a manifest that is accepted is a known one, as both loops refuse the
others. -/
theorem parsePayload_sigs {payload : Slice} {view : DriverManifestView}
    (h : parsePayload payload = .ok view) :
    (∀ e ∈ view.exportDecls, (FuncSig.fromRaw e.sig).isSome) ∧
      ∀ im ∈ view.importDecls, (FuncSig.fromRaw im.sig).isSome := by
  rw [parsePayload] at h
  split at h
  · cases h
  obtain ⟨header, -, h⟩ := bind_ok h
  dsimp only at h
  split at h
  · cases h
  split at h
  · cases h
  obtain ⟨exportsSize, -, h⟩ := bind_ok h
  obtain ⟨importsOff, -, h⟩ := bind_ok h
  obtain ⟨importsSize, -, h⟩ := bind_ok h
  obtain ⟨total, -, h⟩ := bind_ok h
  split at h
  · cases h
  obtain ⟨exports, -, h⟩ := bind_ok h
  obtain ⟨imports, -, h⟩ := bind_ok h
  split at h
  · cases h
  rename_i hexports
  split at h
  · cases h
  rename_i himports
  obtain rfl := Except.ok.inj h
  refine ⟨fun e he => ?_, fun im him => ?_⟩
  · rw [Bool.not_eq_true, List.any_eq_false] at hexports
    simpa [Option.isSome_iff_ne_none] using hexports e he
  · rw [Bool.not_eq_true, List.any_eq_false] at himports
    simpa [Option.isSome_iff_ne_none] using himports im him

theorem parseFromWasm_sigs {wasm : Bytes} {view : DriverManifestView}
    (h : parseFromWasm wasm = .ok view) :
    (∀ e ∈ view.exportDecls, (FuncSig.fromRaw e.sig).isSome) ∧
      ∀ im ∈ view.importDecls, (FuncSig.fromRaw im.sig).isSome := by
  obtain ⟨_ | payload, -, h⟩ := bind_ok h
  · cases h
  · exact parsePayload_sigs h

/-- A name without the NULs that fill it up. -/
def trimNul (buf : Bytes) : Bytes := buf.rdropWhile (· == 0)

end Wari.Manifest
