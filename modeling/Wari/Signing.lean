import Wari.Manifest
import Wari.Wasm

/-!
# The check before signing

A module is signed only where its manifest declares what it exports and imports. The check
reads both sides into maps by name and compares these. A map keeps the last entry of a name,
so where a name is listed with two shapes the check misses the others, and may tell two lists
with the same entries apart.
-/

namespace Wari.Signing

open Lib (Bytes Checked Fault)
open Manifest (DriverManifestError DriverManifestView FuncSig WasmValType WasmSigShape ExportDecl
  ImportDecl parseFromWasm trimNul)
open Wasm (ValType FuncType ExternalKind)

/-! ## What the parser of WebAssembly hands over

The payloads as the check reads them. An item that cannot be parsed is an error in its place. -/

/-- A type of the type section, of which only functions matter. -/
inductive CompositeType where
  | func (ty : FuncType)
  | other
  deriving DecidableEq, Repr

/-- What is imported: a function, by the index of its type, or something else. -/
inductive TypeRef where
  | func (typeIdx : ℕ)
  | other
  deriving DecidableEq, Repr

structure Import where
  module : Bytes
  name : Bytes
  ty : TypeRef
  deriving DecidableEq, Repr

structure Export where
  name : Bytes
  kind : ExternalKind
  index : ℕ
  deriving DecidableEq, Repr

/-- A payload. Its items are read one by one, and a malformed one is an error. -/
inductive Payload where
  /-- in groups -/
  | typeSection (groups : List (Except String (List CompositeType)))
  | importSection (imports : List (Except String Import))
  | functionSection (types : List (Except String ℕ))
  | exportSection (exports : List (Except String Export))
  | other

/-! ## The surface of a module

What the walk collects is types, then functions by their index, then the two maps. Later entries
of a name replace earlier ones in these. -/

/-- Why the walk ends early, with what the message tells. -/
inductive WalkError where
  | wasmparser (e : String)
  | typeSection (e : String)
  | importSection (e : String)
  | functionSection (e : String)
  | exportSection (e : String)
  | importType (module name : Bytes) (typeIdx : ℕ)
  | exportOutOfBounds (name : Bytes) (localIdx : ℕ)
  | exportType (name : Bytes) (typeIdx : ℕ)
  deriving DecidableEq, Repr

/-- A module and a name in it are ordered as a pair. -/
instance instOrdKey : Ord (Bytes × Bytes) := lexOrd

structure WasmFuncSurface where
  exports : Std.TreeMap Bytes WasmSigShape
  imports : Std.TreeMap (Bytes × Bytes) WasmSigShape

/-- What the walk has collected of the module so far. -/
structure Walker where
  types : List (Option WasmSigShape)
  importFuncTypes : List ℕ
  localFuncTypes : List ℕ
  exports : Std.TreeMap Bytes WasmSigShape
  imports : Std.TreeMap (Bytes × Bytes) WasmSigShape

def toWari : ValType → Option WasmValType
  | .i32 => some .i32
  | .i64 => some .i64
  | .f32 | .f64 | .v128 | .ref _ => none

/-- The signatures in the order they are tried. -/
def sigTable : List FuncSig :=
  [.u32Unit, .u32I32, .u32U32, .u32x3I32, .u32x4I32, .u32x5I32, .u32xU32I32, .u64I32, .unitI32,
    .unitU64, .unitUnit]

/-- The shape of a function type, where a signature has it. -/
def wasmSigShape (params results : List ValType) : Option WasmSigShape := do
  let p ← params.mapM toWari
  let r ← results.mapM toWari
  (sigTable.map FuncSig.wasmShape).find? fun shape => shape.params = p ∧ shape.results = r

def CompositeType.shape : CompositeType → Option WasmSigShape
  | .func f => wasmSigShape f.params f.results
  | .other => none

namespace Walker

def empty : Walker := ⟨[], [], [], ∅, ∅⟩

def addTypes (w : Walker) (group : List CompositeType) : Walker :=
  { w with types := w.types ++ group.map CompositeType.shape }

/-- The shape under a type index; `none` is no such index, or no function type. -/
def shapeAt (w : Walker) (typeIdx : ℕ) : Option WasmSigShape := w.types[typeIdx]?.join

def addImport (w : Walker) (im : Import) : Except WalkError Walker :=
  match im.ty with
  | .func typeIdx =>
    match w.shapeAt typeIdx with
    | some sig => .ok { w with
        importFuncTypes := w.importFuncTypes ++ [typeIdx]
        imports := w.imports.insert (im.module, im.name) sig }
    | none => .error (.importType im.module im.name typeIdx)
  | .other => .ok w

def addFunction (w : Walker) (typeIdx : ℕ) : Walker :=
  { w with localFuncTypes := w.localFuncTypes ++ [typeIdx] }

/-- `import_func_types.len() as u32`, which cuts the length off. -/
def importCount (w : Walker) : ℕ := w.importFuncTypes.length % 2 ^ 32

/-- The type index of an exported function: imported functions come first. -/
def typeIdx (w : Walker) (ex : Export) : Except WalkError ℕ :=
  if h : ex.index < w.importCount then
    .ok (w.importFuncTypes.get ⟨ex.index, h.trans_le (Nat.mod_le _ _)⟩)
  else
    match w.localFuncTypes[ex.index - w.importCount]? with
    | some typeIdx => .ok typeIdx
    | none => .error (.exportOutOfBounds ex.name (ex.index - w.importCount))

def addExport (w : Walker) (ex : Export) : Except WalkError Walker :=
  if ex.kind = .func then do
    let typeIdx ← w.typeIdx ex
    match w.shapeAt typeIdx with
    | some sig => .ok { w with exports := w.exports.insert ex.name sig }
    | none => .error (.exportType ex.name typeIdx)
  else .ok w

/-- The loop over the items of a section. -/
def items {α : Type} (malformed : String → WalkError) (step : Walker → α → Except WalkError Walker)
    (w : Walker) (l : List (Except String α)) : Except WalkError Walker :=
  l.foldlM (fun w item => item.mapError malformed >>= step w) w

def payload (w : Walker) (p : Except String Payload) : Except WalkError Walker := do
  match ← p.mapError .wasmparser with
  | .typeSection groups => items .typeSection (fun w group => .ok (w.addTypes group)) w groups
  | .importSection imports => items .importSection addImport w imports
  | .functionSection types => items .functionSection (fun w ty => .ok (w.addFunction ty)) w types
  | .exportSection exports => items .exportSection addExport w exports
  | .other => .ok w

end Walker

/-- The functions a module exports and imports, off the payloads of the module. -/
def walkWasm (payloads : List (Except String Payload)) : Except WalkError WasmFuncSurface := do
  let w ← payloads.foldlM Walker.payload .empty
  return ⟨w.exports, w.imports⟩

/-! ## The check

The declarations go into maps of their own, and both directions are compared. -/

/-- Why a module is not signed, with what the message tells. -/
inductive VerifyError where
  | parse (e : DriverManifestError)
  | kind (e : DriverManifestError)
  | walk (e : WalkError)
  | exportSig (name : Bytes) (sig : BitVec 8)
  | importSig (key : Bytes × Bytes) (sig : BitVec 8)
  | exportMissing (name : Bytes)
  | exportShape (name : Bytes) (sig : FuncSig) (manifestShape actual : WasmSigShape)
  | exportUndeclared (name : Bytes)
  | importMissing (key : Bytes × Bytes)
  | importShape (key : Bytes × Bytes) (sig : FuncSig) (manifestShape actual : WasmSigShape)
  | importUndeclared (key : Bytes × Bytes)
  deriving DecidableEq, Repr

section Maps

variable {α κ : Type} [Ord κ]

/-- One declaration read into a map. A later one of the same name replaces an earlier one. -/
def declare (key : α → κ) (sig : α → BitVec 8) (unknown : κ → BitVec 8 → VerifyError)
    (m : Std.TreeMap κ FuncSig) (d : α) : Except VerifyError (Std.TreeMap κ FuncSig) :=
  match FuncSig.fromRaw (sig d) with
  | some s => .ok (m.insert (key d) s)
  | none => .error (unknown (key d) (sig d))

/-- The loop over the declarations, up to the first signature that is not known. -/
def collect (key : α → κ) (sig : α → BitVec 8) (unknown : κ → BitVec 8 → VerifyError)
    (decls : List α) : Except VerifyError (Std.TreeMap κ FuncSig) :=
  decls.foldlM (declare key sig unknown) ∅

/-- Every declared name is there, with its shape. -/
def checkDeclared (missing : κ → VerifyError)
    (mismatch : κ → FuncSig → WasmSigShape → WasmSigShape → VerifyError)
    (declared : Std.TreeMap κ FuncSig) (actual : Std.TreeMap κ WasmSigShape) :
    Except VerifyError Unit :=
  forM declared.toList fun e =>
    match actual[e.1]? with
    | some shape =>
      if shape = e.2.wasmShape then .ok () else .error (mismatch e.1 e.2 e.2.wasmShape shape)
    | none => .error (missing e.1)

/-- Every name that is there in the module is declared in the manifest. -/
def checkUndeclared (undeclared : κ → VerifyError) (declared : Std.TreeMap κ FuncSig)
    (actual : Std.TreeMap κ WasmSigShape) : Except VerifyError Unit :=
  forM actual.toList fun e =>
    if declared.contains e.1 then .ok () else .error (undeclared e.1)

end Maps

def exportKey (e : ExportDecl) : Bytes := trimNul e.name

def importKey (im : ImportDecl) : Bytes × Bytes := (trimNul im.module, trimNul im.name)

/-- The manifest against the surface of the module, in both directions. -/
def crossCheck (view : DriverManifestView) (surface : WasmFuncSurface) :
    Except VerifyError Unit := do
  let manifestExports ← collect exportKey ExportDecl.sig .exportSig view.exportDecls
  let manifestImports ← collect importKey ImportDecl.sig .importSig view.importDecls
  checkDeclared .exportMissing .exportShape manifestExports surface.exports
  checkUndeclared .exportUndeclared manifestExports surface.exports
  checkDeclared .importMissing .importShape manifestImports surface.imports
  checkUndeclared .importUndeclared manifestImports surface.imports

/-- **The check before signing**, with `parseAll` the parser of WebAssembly. -/
def verifyManifest (parseAll : Bytes → List (Except String Payload)) (wasm : Bytes) :
    Checked VerifyError Unit := do
  let view ← (parseFromWasm wasm).mapError (Fault.map .parse)
  -- the kind is only printed, but it has to be one
  let _ ← view.kind.mapError fun e => .refused (.kind e)
  let surface ← (walkWasm (parseAll wasm)).mapError fun e => .refused (.walk e)
  (crossCheck view surface).mapError .refused

end Wari.Signing
