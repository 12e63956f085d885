import Wari.Lib.Padded
import Wari.Payload

/-!
# The builder of manifests

The image of a manifest is built at compile time, record by record into a buffer of zeros. A name
that leaves no NUL at the end of its field aborts the build. A module with the image in a custom
section is parsed into what the builder was given.
-/

namespace Wari.Manifest

open Lib (Bytes Slice toLe ofLe writeAt zeros padded length_zeros zeros_add length_padded
  writeAt_padded)
open Lib.Leb128 (Encodes)

/-- `kind as u16` -/
def DriverKind.raw : DriverKind → ℕ
  | .uart => 1
  | .net => 2
  | .block => 3
  | .tier1App => 4

/-- `sig as u8` -/
def FuncSig.raw : FuncSig → BitVec 8
  | .unitUnit => 1
  | .u32xU32I32 => 2
  | .u32I32 => 3
  | .u32U32 => 4
  | .u64I32 => 5
  | .unitU64 => 6
  | .u32x5I32 => 7
  | .u32x3I32 => 8
  | .u32x4I32 => 9
  | .u32Unit => 10
  | .unitI32 => 11

theorem DriverKind.fromRaw_raw (kind : DriverKind) : fromRaw kind.raw = some kind := by
  cases kind <;> rfl

theorem FuncSig.fromRaw_raw (sig : FuncSig) : fromRaw sig.raw = some sig := by
  cases sig <;> rfl

def manifestSize (exportCount importCount : ℕ) : ℕ :=
  headerSize + exportCount * exportDeclSize + importCount * importDeclSize

/-- The loop over the exports, each a name and a signature: the image so far and the index of the
next record, unless it panics. -/
def writeExports : List (Bytes × FuncSig) → Bytes → ℕ → Option (Bytes × ℕ)
  | [], buf, i => some (buf, i)
  | (name, sig) :: exports, buf, i =>
    if nameMax ≤ name.length then none
    else do
      let buf ← writeAt buf i name
      let buf ← writeAt buf (i + nameMax) [sig.raw]
      writeExports exports buf (i + (nameMax + 4))

/-- The loop over the imports, each a module, a name and a signature. -/
def writeImports : List (Bytes × Bytes × FuncSig) → Bytes → ℕ → Option (Bytes × ℕ)
  | [], buf, i => some (buf, i)
  | (module, name, sig) :: imports, buf, i =>
    if moduleMax ≤ module.length then none
    else if nameMax ≤ name.length then none
    else do
      let buf ← writeAt buf i module
      let buf ← writeAt buf (i + moduleMax) name
      let buf ← writeAt buf (i + moduleMax + nameMax) [sig.raw]
      writeImports imports buf (i + (moduleMax + nameMax + 4))

/-- The stores of the header. The flags stay zero. -/
def writeHeader (buf : Bytes) (kind : DriverKind) (exportCount importCount : ℕ) : Option Bytes := do
  let buf ← writeAt buf 0 magic
  let buf ← writeAt buf 4 (toLe 2 manifestAbiVersion)
  let buf ← writeAt buf 6 (toLe 2 kind.raw)
  let buf ← writeAt buf 8 (toLe 2 exportCount)
  writeAt buf 10 (toLe 2 importCount)

/-- The image of a manifest in `n` bytes. A panic aborts the build. -/
def buildManifest (n : ℕ) (kind : DriverKind) (exports : List (Bytes × FuncSig))
    (imports : List (Bytes × Bytes × FuncSig)) : Option Bytes :=
  if manifestSize exports.length imports.length ≠ n then none
  else do
    let buf ← writeHeader (zeros n) kind exports.length imports.length
    let (buf, i) ← writeExports exports buf 16
    let (buf, _) ← writeImports imports buf i
    return buf

/-! ## The image

What the builder lays out, as a concatenation of records. -/

/-- The fields of the header, the flags last. -/
def headerImage (kind : DriverKind) (exportCount importCount : ℕ) : Bytes :=
  magic ++ toLe 2 manifestAbiVersion ++ toLe 2 kind.raw ++ toLe 2 exportCount ++
    toLe 2 importCount ++ zeros 4

/-- An export in its record: the name padded with zeros, and the signature byte padded to four. -/
def exportImage (e : Bytes × FuncSig) : Bytes := padded nameMax e.1 ++ padded 4 [e.2.raw]

/-- An import in its record: the two names padded with zeros, and the signature byte padded to
four. -/
def importImage (im : Bytes × Bytes × FuncSig) : Bytes :=
  padded moduleMax im.1 ++ (padded nameMax im.2.1 ++ padded 4 [im.2.2.raw])

def manifestImage (kind : DriverKind) (exports : List (Bytes × FuncSig))
    (imports : List (Bytes × Bytes × FuncSig)) : Bytes :=
  headerImage kind exports.length imports.length ++ exports.flatMap exportImage ++
    imports.flatMap importImage

/-- A name fits its field, with a NUL behind it, and does not end in one. -/
structure Fits (max : ℕ) (name : Bytes) : Prop where
  room : name.length < max
  last : name.getLast? ≠ some 0

instance (max : ℕ) (name : Bytes) : Decidable (Fits max name) :=
  decidable_of_iff (name.length < max ∧ name.getLast? ≠ some 0)
    ⟨fun h => ⟨h.1, h.2⟩, fun h => ⟨h.room, h.last⟩⟩

section Image

variable {kind : DriverKind} {exports : List (Bytes × FuncSig)}
  {imports : List (Bytes × Bytes × FuncSig)} {e : Bytes × FuncSig} {im : Bytes × Bytes × FuncSig}
  {front rest buf : Bytes} {i n : ℕ} {r : Bytes × ℕ}

theorem length_headerImage (kind : DriverKind) (exportCount importCount : ℕ) :
    (headerImage kind exportCount importCount).length = headerSize := rfl

theorem length_exportImage (h : e.1.length < nameMax) :
    (exportImage e).length = exportDeclSize := by
  rw [exportImage, List.length_append, length_padded h.le, length_padded (by simp)]
  rfl

theorem length_importImage (hmodule : im.1.length < moduleMax) (hname : im.2.1.length < nameMax) :
    (importImage im).length = importDeclSize := by
  rw [importImage, List.length_append, List.length_append, length_padded hmodule.le,
    length_padded hname.le, length_padded (by simp)]
  rfl

theorem length_exportImages (h : ∀ e ∈ exports, e.1.length < nameMax) :
    (exports.flatMap exportImage).length = exports.length * exportDeclSize := by
  rw [List.length_flatMap, List.map_congr_left fun e he => length_exportImage (h e he),
    List.map_const', List.sum_replicate_nat]

theorem length_importImages
    (h : ∀ im ∈ imports, im.1.length < moduleMax ∧ im.2.1.length < nameMax) :
    (imports.flatMap importImage).length = imports.length * importDeclSize := by
  rw [List.length_flatMap,
    List.map_congr_left fun im him => length_importImage (h im him).1 (h im him).2,
    List.map_const', List.sum_replicate_nat]

/-- The loop over the exports appends their records. -/
theorem writeExports_eq (h : ∀ e ∈ exports, e.1.length < nameMax) (hi : i = front.length) :
    writeExports exports (front ++ (zeros (exports.length * exportDeclSize) ++ rest)) i =
      some (front ++ exports.flatMap exportImage ++ rest,
        front.length + exports.length * exportDeclSize) := by
  induction exports generalizing front i with
  | nil =>
    subst hi
    simp [writeExports, zeros]
  | cons e exports ih =>
    obtain ⟨name, sig⟩ := e
    obtain ⟨hname, hexports⟩ := List.forall_mem_cons.mp h
    have hsplit : zeros ((exports.length + 1) * exportDeclSize) =
        zeros nameMax ++ (zeros 4 ++ zeros (exports.length * exportDeclSize)) := by
      rw [← zeros_add, ← zeros_add, Nat.succ_mul, Nat.add_comm, exportDeclSize, Nat.add_assoc]
    have himage : exportImage (name, sig) = padded nameMax name ++ padded 4 [sig.raw] := rfl
    have hsecond : i + nameMax = (front ++ padded nameMax name).length := by
      rw [List.length_append, length_padded hname.le, hi]
    have hthird : i + (nameMax + 4) = (front ++ exportImage (name, sig)).length := by
      rw [List.length_append, length_exportImage hname, hi]
      rfl
    have hnext : i + (nameMax + 4) + exports.length * exportDeclSize =
        front.length + (exports.length + 1) * exportDeclSize := by
      rw [hi, exportDeclSize, Nat.succ_mul]
      omega
    rw [writeExports, if_neg (Nat.not_le.mpr hname), List.length_cons, hsplit, List.append_assoc,
      writeAt_padded hi hname.le]
    simp only [Option.bind_eq_bind, Option.bind_some]
    rw [List.append_assoc (zeros 4), writeAt_padded hsecond (by simp), Option.bind_some,
      List.append_assoc front, ← himage, ih hexports hthird, ← hthird, hnext]
    simp only [List.flatMap_cons, List.append_assoc]

/-- The loop over the imports appends their records, where the zeroed image has room for them. -/
theorem writeImports_eq
    (h : ∀ im ∈ imports, im.1.length < moduleMax ∧ im.2.1.length < nameMax)
    (hi : i = front.length) :
    writeImports imports (front ++ (zeros (imports.length * importDeclSize) ++ rest)) i =
      some (front ++ imports.flatMap importImage ++ rest,
        front.length + imports.length * importDeclSize) := by
  induction imports generalizing front i with
  | nil =>
    subst hi
    simp [writeImports, zeros]
  | cons im imports ih =>
    obtain ⟨module, name, sig⟩ := im
    obtain ⟨⟨hmodule, hname⟩, himports⟩ := List.forall_mem_cons.mp h
    have hsplit : zeros ((imports.length + 1) * importDeclSize) =
        zeros moduleMax ++ (zeros nameMax ++
          (zeros 4 ++ zeros (imports.length * importDeclSize))) := by
      rw [← zeros_add, ← zeros_add, ← zeros_add, Nat.succ_mul, Nat.add_comm, importDeclSize,
        Nat.add_assoc, Nat.add_assoc]
    have himage : importImage (module, name, sig) =
        padded moduleMax module ++ (padded nameMax name ++ padded 4 [sig.raw]) := rfl
    have hsecond : i + moduleMax = (front ++ padded moduleMax module).length := by
      rw [List.length_append, length_padded hmodule.le, hi]
    have hthird : i + moduleMax + nameMax =
        (front ++ padded moduleMax module ++ padded nameMax name).length := by
      rw [List.length_append, length_padded hname.le, hsecond]
    have hfourth : i + (moduleMax + nameMax + 4) =
        (front ++ importImage (module, name, sig)).length := by
      rw [List.length_append, length_importImage hmodule hname, hi]
      rfl
    have hnext : i + (moduleMax + nameMax + 4) + imports.length * importDeclSize =
        front.length + (imports.length + 1) * importDeclSize := by
      rw [hi, importDeclSize, Nat.succ_mul]
      omega
    rw [writeImports, if_neg (Nat.not_le.mpr hmodule), if_neg (Nat.not_le.mpr hname),
      List.length_cons, hsplit, List.append_assoc, writeAt_padded hi hmodule.le]
    simp only [Option.bind_eq_bind, Option.bind_some]
    rw [List.append_assoc (zeros nameMax), writeAt_padded hsecond hname.le, Option.bind_some,
      List.append_assoc (zeros 4), writeAt_padded hthird (by simp), Option.bind_some,
      List.append_assoc _ (padded nameMax name), List.append_assoc front, ← himage,
      ih himports hfourth, ← hfourth, hnext]
    simp only [List.flatMap_cons, List.append_assoc]

/-- The header is written into the zeros at the start. -/
theorem writeHeader_eq (rest : Bytes) (kind : DriverKind) (exportCount importCount : ℕ) :
    writeHeader (zeros headerSize ++ rest) kind exportCount importCount =
      some (headerImage kind exportCount importCount ++ rest) := by
  have hnumber : ∀ {front : Bytes} {i : ℕ} n v, i = front.length →
      writeAt (front ++ (zeros (2 + n) ++ rest)) i (toLe 2 v) =
        some (front ++ toLe 2 v ++ (zeros n ++ rest)) := fun n v hi => by
    rw [zeros_add, List.append_assoc, writeAt_padded hi (by simp),
      Lib.padded_of_length_eq (by simp)]
  have hmagic : writeAt (zeros headerSize ++ rest) 0 magic = some (magic ++ (zeros 12 ++ rest)) :=
    @writeAt_padded magic [] (zeros 12 ++ rest) 0 4 rfl (by decide)
  have habi : writeAt (magic ++ (zeros 12 ++ rest)) 4 (toLe 2 manifestAbiVersion) =
      some (magic ++ toLe 2 manifestAbiVersion ++ (zeros 10 ++ rest)) := hnumber 10 _ rfl
  have hkind : writeAt (magic ++ toLe 2 manifestAbiVersion ++ (zeros 10 ++ rest)) 6
      (toLe 2 kind.raw) = some (magic ++ toLe 2 manifestAbiVersion ++ toLe 2 kind.raw ++
        (zeros 8 ++ rest)) := hnumber 8 _ rfl
  have hexports : writeAt (magic ++ toLe 2 manifestAbiVersion ++ toLe 2 kind.raw ++
      (zeros 8 ++ rest)) 8 (toLe 2 exportCount) = some (magic ++ toLe 2 manifestAbiVersion ++
        toLe 2 kind.raw ++ toLe 2 exportCount ++ (zeros 6 ++ rest)) := hnumber 6 _ rfl
  have himports : writeAt (magic ++ toLe 2 manifestAbiVersion ++ toLe 2 kind.raw ++
      toLe 2 exportCount ++ (zeros 6 ++ rest)) 10 (toLe 2 importCount) =
        some (magic ++ toLe 2 manifestAbiVersion ++ toLe 2 kind.raw ++ toLe 2 exportCount ++
          toLe 2 importCount ++ (zeros 4 ++ rest)) := hnumber 4 _ rfl
  simp only [writeHeader, Option.bind_eq_bind, hmagic, habi, hkind, hexports, himports,
    Option.bind_some]
  rw [headerImage, List.append_assoc _ (zeros 4)]

/-- **The builder** lays out the image: header, exports and imports, each record at its offset. -/
theorem buildManifest_eq (hexports : ∀ e ∈ exports, e.1.length < nameMax)
    (himports : ∀ im ∈ imports, im.1.length < moduleMax ∧ im.2.1.length < nameMax) :
    buildManifest (manifestSize exports.length imports.length) kind exports imports =
      some (manifestImage kind exports imports) := by
  have hsplit : zeros (manifestSize exports.length imports.length) =
      zeros headerSize ++ (zeros (exports.length * exportDeclSize) ++
        (zeros (imports.length * importDeclSize) ++ [])) := by
    rw [manifestSize, zeros_add, zeros_add, List.append_nil, List.append_assoc]
  have hstart : 16 = (headerImage kind exports.length imports.length).length := rfl
  have hlen : headerSize + exports.length * exportDeclSize =
      (headerImage kind exports.length imports.length ++ exports.flatMap exportImage).length := by
    rw [List.length_append, length_headerImage, length_exportImages hexports]
  rw [buildManifest, if_neg (not_not.mpr rfl), hsplit, writeHeader_eq]
  simp only [Option.bind_eq_bind, Option.bind_some]
  rw [writeExports_eq hexports hstart, Option.bind_some, length_headerImage]
  dsimp only
  rw [writeImports_eq himports hlen, Option.bind_some, List.append_nil]
  rfl

theorem writeExports_fits (h : writeExports exports buf i = some r) :
    ∀ e ∈ exports, e.1.length < nameMax := by
  induction exports generalizing buf i with
  | nil => simp
  | cons e exports ih =>
    obtain ⟨name, sig⟩ := e
    rw [writeExports] at h
    split at h
    · cases h
    · rename_i hname
      obtain ⟨buf₁, -, h⟩ := Option.bind_eq_some_iff.mp h
      obtain ⟨buf₂, -, h⟩ := Option.bind_eq_some_iff.mp h
      exact List.forall_mem_cons.mpr ⟨Nat.not_le.mp hname, ih h⟩

theorem writeImports_fits (h : writeImports imports buf i = some r) :
    ∀ im ∈ imports, im.1.length < moduleMax ∧ im.2.1.length < nameMax := by
  induction imports generalizing buf i with
  | nil => simp
  | cons im imports ih =>
    obtain ⟨module, name, sig⟩ := im
    rw [writeImports] at h
    split at h
    · cases h
    rename_i hmodule
    split at h
    · cases h
    rename_i hname
    obtain ⟨buf₁, -, h⟩ := Option.bind_eq_some_iff.mp h
    obtain ⟨buf₂, -, h⟩ := Option.bind_eq_some_iff.mp h
    obtain ⟨buf₃, -, h⟩ := Option.bind_eq_some_iff.mp h
    exact List.forall_mem_cons.mpr ⟨⟨Nat.not_le.mp hmodule, Nat.not_le.mp hname⟩, ih h⟩

/-- **What can be built**: manifests whose names leave room for a NUL, into a buffer of their
size. -/
theorem buildManifest_eq_some {image : Bytes} :
    buildManifest n kind exports imports = some image ↔
      (n = manifestSize exports.length imports.length ∧
        (∀ e ∈ exports, e.1.length < nameMax) ∧
        ∀ im ∈ imports, im.1.length < moduleMax ∧ im.2.1.length < nameMax) ∧
      image = manifestImage kind exports imports := by
  constructor
  · intro h
    have hbuild := h
    rw [buildManifest] at h
    split at h
    · cases h
    rename_i hsize
    obtain rfl := not_not.mp hsize
    simp only [Option.bind_eq_bind, Option.bind_eq_some_iff] at h
    obtain ⟨_, -, ⟨buf, i⟩, hexports, ⟨buf', i'⟩, himports, -⟩ := h
    have hexports := writeExports_fits hexports
    have himports := writeImports_fits himports
    rw [buildManifest_eq hexports himports] at hbuild
    exact ⟨⟨rfl, hexports, himports⟩, (Option.some.inj hbuild).symm⟩
  · rintro ⟨⟨rfl, hexports, himports⟩, rfl⟩
    exact buildManifest_eq hexports himports

end Image

/-! ## Parsing the image

The records are read back one by one, since all of a kind have the same size. -/

/-- What a manifest can declare: at most 65535 of each, with names that fit. -/
structure Declarable (exports : List (Bytes × FuncSig)) (imports : List (Bytes × Bytes × FuncSig)) :
    Prop where
  exportCount : exports.length ≤ 65535
  importCount : imports.length ≤ 65535
  exports : ∀ e ∈ exports, Fits nameMax e.1
  imports : ∀ im ∈ imports, Fits moduleMax im.1 ∧ Fits nameMax im.2.1

/-- Records laid out one after the other are read back, one after the other. -/
theorem records_flatMap {α β : Type} {size : ℕ} {ofBytes : Bytes → α} {image : β → Bytes}
    {xs : List β} (h : ∀ x ∈ xs, (image x).length = size) :
    records size ofBytes xs.length (xs.flatMap image) = xs.map fun x => ofBytes (image x) := by
  induction xs with
  | nil => rfl
  | cons x xs ih =>
    obtain ⟨hx, hxs⟩ := List.forall_mem_cons.mp h
    rw [List.flatMap_cons, List.length_cons, records, List.take_left' hx, List.drop_left' hx,
      ih hxs, List.map_cons]

/-- A name in its field is read back without the padding, as it has no zero byte in it. -/
theorem Fits.trimNul {max : ℕ} {name : Bytes} (h : Fits max name) :
    trimNul (padded max name) = name := Lib.rdropWhile_padded h.last max

section Parse

variable {kind : DriverKind} {exports : List (Bytes × FuncSig)}
  {imports : List (Bytes × Bytes × FuncSig)} {start : ℕ}

/-- A record of an export holds what was declared. -/
theorem ofBytes_exportImage {e : Bytes × FuncSig} (h : e.1.length < nameMax) :
    ExportDecl.ofBytes (exportImage e) = ⟨padded nameMax e.1, e.2.raw, zeros 3⟩ := by
  have hlen := length_padded h.le
  rw [ExportDecl.ofBytes, exportImage, List.take_left' hlen, List.getD_eq_getElem?_getD,
    List.getElem?_append_right hlen.le, hlen, Nat.sub_self, ← List.drop_drop, List.drop_left' hlen]
  rfl

theorem ofBytes_importImage {im : Bytes × Bytes × FuncSig} (hmodule : im.1.length < moduleMax)
    (hname : im.2.1.length < nameMax) : ImportDecl.ofBytes (importImage im) =
      ⟨padded moduleMax im.1, padded nameMax im.2.1, im.2.2.raw, zeros 3⟩ := by
  have hlen := length_padded hmodule.le
  have hlen' := length_padded hname.le
  have hboth : (padded moduleMax im.1 ++ padded nameMax im.2.1).length = moduleMax + nameMax := by
    rw [List.length_append, hlen, hlen']
  rw [ImportDecl.ofBytes, importImage, List.take_left' hlen, List.drop_left' hlen,
    List.take_left' hlen', ← List.append_assoc, List.getD_eq_getElem?_getD,
    List.getElem?_append_right hboth.le, hboth, Nat.sub_self, ← List.drop_drop,
    List.drop_left' hboth]
  rfl

/-- The header holds the kind and the counts. -/
theorem headOf_image (h : Declarable exports imports) :
    headOf ⟨start, manifestImage kind exports imports⟩ =
      ⟨magic, manifestAbiVersion, kind.raw, exports.length, imports.length, 0⟩ := by
  have hnumber : ∀ {v}, v ≤ 65535 → ofLe (toLe 2 v) = v := fun hv => by
    rw [Lib.ofLe_toLe, Nat.mod_eq_of_lt (by omega)]
  have hkind : kind.raw ≤ 65535 := by cases kind <;> decide
  have htake : (manifestImage kind exports imports).take headerSize =
      headerImage kind exports.length imports.length := by
    rw [manifestImage, List.append_assoc, List.take_left' (length_headerImage _ _ _)]
  have hfields : ManifestHeader.ofBytes (headerImage kind exports.length imports.length) =
      ⟨magic, ofLe (toLe 2 manifestAbiVersion), ofLe (toLe 2 kind.raw),
        ofLe (toLe 2 exports.length), ofLe (toLe 2 imports.length), ofLe (zeros 4)⟩ := rfl
  rw [headOf, htake, hfields, hnumber (by decide), hnumber hkind, hnumber h.exportCount,
    hnumber h.importCount]
  rfl

theorem importsOff_image (h : Declarable exports imports) :
    importsOff ⟨start, manifestImage kind exports imports⟩ =
      (headerImage kind exports.length imports.length ++ exports.flatMap exportImage).length := by
  rw [importsOff, headOf_image h, List.length_append, length_headerImage,
    length_exportImages fun e he => (h.exports e he).room]

theorem manifestEnd_image (h : Declarable exports imports) :
    manifestEnd ⟨start, manifestImage kind exports imports⟩ =
      (manifestImage kind exports imports).length := by
  have himports := length_importImages fun im him =>
    ⟨(h.imports im him).1.room, (h.imports im him).2.room⟩
  rw [manifestEnd, importsOff_image h, headOf_image h, ← himports, manifestImage,
    ← List.length_append]

theorem length_manifestImage (h : Declarable exports imports) :
    (manifestImage kind exports imports).length =
      manifestSize exports.length imports.length := by
  rw [← @manifestEnd_image kind exports imports 0 h, manifestEnd, importsOff, headOf_image h,
    manifestSize]

/-- **The exports** are found as they were declared, each in its record. -/
theorem exportDecls_image (h : Declarable exports imports) :
    (viewOf ⟨start, manifestImage kind exports imports⟩).exportDecls =
      exports.map fun e => ⟨padded nameMax e.1, e.2.raw, zeros 3⟩ := by
  have hroom := fun e he => (h.exports e he).room
  have hbytes : (viewOf ⟨start, manifestImage kind exports imports⟩).exports.bytes =
      exports.flatMap exportImage := by
    rw [viewOf, importsOff_image h, manifestImage, List.take_left,
      List.drop_left' (length_headerImage _ _ _)]
  have hhead : (viewOf ⟨start, manifestImage kind exports imports⟩).head =
      headOf ⟨start, manifestImage kind exports imports⟩ := rfl
  rw [DriverManifestView.exportDecls, hbytes, hhead, headOf_image h,
    records_flatMap fun e he => length_exportImage (hroom e he)]
  exact List.map_congr_left fun e he => ofBytes_exportImage (hroom e he)

/-- **The imports** are found as they were declared, each in its record. -/
theorem importDecls_image (h : Declarable exports imports) :
    (viewOf ⟨start, manifestImage kind exports imports⟩).importDecls =
      imports.map fun im =>
        ⟨padded moduleMax im.1, padded nameMax im.2.1, im.2.2.raw, zeros 3⟩ := by
  have hmodule := fun im him => (h.imports im him).1.room
  have hname := fun im him => (h.imports im him).2.room
  have hbytes : (viewOf ⟨start, manifestImage kind exports imports⟩).imports.bytes =
      imports.flatMap importImage := by
    rw [viewOf, importsOff_image h, manifestEnd_image h, List.take_length, manifestImage,
      List.drop_left]
  have hhead : (viewOf ⟨start, manifestImage kind exports imports⟩).head =
      headOf ⟨start, manifestImage kind exports imports⟩ := rfl
  rw [DriverManifestView.importDecls, hbytes, hhead, headOf_image h,
    records_flatMap fun im him => length_importImage (hmodule im him) (hname im him)]
  exact List.map_congr_left fun im him => ofBytes_importImage (hmodule im him) (hname im him)

/-- **The image** is as a payload has to be, field by field. -/
theorem wellFormed_image (h : Declarable exports imports) :
    WellFormed ⟨start, manifestImage kind exports imports⟩ where
  room := (manifestEnd_image h).le
  magic := by rw [headOf_image h]
  abi := by rw [headOf_image h]
  exportSigs := by
    rw [exportDecls_image h, List.forall_mem_map]
    exact fun e _ => by rw [FuncSig.fromRaw_raw, Option.isSome_some]
  importSigs := by
    rw [importDecls_image h, List.forall_mem_map]
    exact fun im _ => by rw [FuncSig.fromRaw_raw, Option.isSome_some]

end Parse

/-! ## The module

The manifest as a custom section behind the sections of a module, where the search finds it. -/

/-- A number of 32 bits, in at most five bytes. -/
def EncodesU32 (bs : Bytes) (n : ℕ) : Prop := Encodes bs n ∧ bs.length ≤ 5 ∧ n < 2 ^ 32

/-- A custom section: its size, the length of its name, the name and what it has. -/
def CustomSection (name contents sec : Bytes) : Prop :=
  ∃ size nameLen, EncodesU32 size (nameLen ++ (name ++ contents)).length ∧
    EncodesU32 nameLen name.length ∧
    sec = sectionIdCustom :: (size ++ (nameLen ++ (name ++ contents)))

/-- A section that is no custom section of a name. -/
inductive OtherSection (target : Bytes) : Bytes → Prop where
  /-- no custom section -/
  | plain {id : BitVec 8} {size contents : Bytes} (hid : id ≠ sectionIdCustom)
      (hsize : EncodesU32 size contents.length) : OtherSection target (id :: (size ++ contents))
  /-- a custom section of another name -/
  | custom {name contents sec : Bytes} (h : CustomSection name contents sec) (hne : name ≠ target) :
      OtherSection target sec

/-- A module: the preamble, these sections, and whatever is behind them. -/
def moduleOf (sections : List Bytes) (rest : Bytes) : Bytes :=
  wasmMagic ++ wasmVersion ++ (sections.flatten ++ rest)

section Module

variable {wasm target name contents sec front rest bs : Bytes} {sections : List Bytes}
  {offs : List ℕ} {r : Option Slice} {n off : ℕ}

theorem EncodesU32.u32At (h : EncodesU32 bs n) (hwasm : wasm = front ++ (bs ++ rest))
    (hoff : off = front.length) : U32At wasm off n (off + bs.length) :=
  ⟨⟨front, bs, rest, hwasm, hoff.symm, h.1, h.2.1, rfl⟩, h.2.2⟩

/-- Where the parts of a custom section are. -/
theorem CustomSection.parts (h : CustomSection name contents sec)
    (hwasm : wasm = front ++ (sec ++ rest)) : ∃ size start nameLen nameStart,
      wasm[front.length]? = some sectionIdCustom ∧ U32At wasm (front.length + 1) size start ∧
      start + size = front.length + sec.length ∧ U32At wasm start nameLen nameStart ∧
      nameStart + nameLen ≤ start + size ∧
      (wasm.take (nameStart + nameLen)).drop nameStart = name ∧
      (wasm.take (start + size)).drop (nameStart + nameLen) = contents := by
  obtain ⟨size, nameLen, hsize, hname, rfl⟩ := h
  have hstart : (front ++ [sectionIdCustom] ++ size).length = front.length + 1 + size.length := by
    rw [List.length_append, List.length_append, List.length_singleton]
  have hfirst : (front ++ [sectionIdCustom]).length = front.length + 1 := by
    rw [List.length_append, List.length_singleton]
  have hbefore : wasm = front ++ [sectionIdCustom] ++
      (size ++ (nameLen ++ (name ++ (contents ++ rest)))) := by
    simp [hwasm]
  have hbehind : wasm = front ++ [sectionIdCustom] ++ size ++
      (nameLen ++ (name ++ (contents ++ rest))) := by
    simp [hwasm]
  have hnamed : wasm = front ++ [sectionIdCustom] ++ size ++ nameLen ++
      (name ++ (contents ++ rest)) := by
    simp [hwasm]
  have hnameStart : (front ++ [sectionIdCustom] ++ size ++ nameLen).length =
      front.length + 1 + size.length + nameLen.length := by
    rw [List.length_append, hstart]
  refine ⟨_, _, _, _, ?_, hsize.u32At hbefore hfirst.symm, ?_, hname.u32At hbehind hstart.symm, ?_,
    ?_, ?_⟩
  · rw [hwasm, List.getElem?_append_right le_rfl, Nat.sub_self]
    rfl
  · simp only [List.length_append, List.length_cons]
    omega
  · simp only [List.length_append]
    omega
  · rw [hnamed, ← List.append_assoc _ name, ← hnameStart, ← List.length_append, List.take_left,
      List.drop_left]
  · have hall : wasm =
        front ++ [sectionIdCustom] ++ size ++ nameLen ++ name ++ contents ++ rest := by
      simp [hwasm]
    have hnameEnd : front.length + 1 + size.length + nameLen.length + name.length =
        (front ++ [sectionIdCustom] ++ size ++ nameLen ++ name).length := by
      rw [List.length_append, hnameStart]
    have hend : front.length + 1 + size.length + (nameLen ++ (name ++ contents)).length =
        (front ++ [sectionIdCustom] ++ size ++ nameLen ++ name ++ contents).length := by
      simp only [List.length_append, List.length_singleton]
      omega
    rw [hall, hend, hnameEnd, List.take_left, List.drop_left]

/-- A section of another kind or name is passed over. -/
theorem OtherSection.finds (h : OtherSection target sec) (hwasm : wasm = front ++ (sec ++ rest))
    (hrest : Finds (U32At wasm) wasm target (front ++ sec).length offs r) :
    ∃ offs', Finds (U32At wasm) wasm target front.length offs' r := by
  have hin : front.length + sec.length ≤ wasm.length := by
    simp only [hwasm, List.length_append]
    omega
  rw [List.length_append] at hrest
  cases h with
  | @plain id size contents hid hsize =>
    have hbefore : wasm = front ++ [id] ++ (size ++ (contents ++ rest)) := by
      simp [hwasm]
    have hget : wasm[front.length]? = some id := by
      rw [hwasm, List.getElem?_append_right le_rfl, Nat.sub_self]
      rfl
    have hend : front.length + 1 + size.length + contents.length =
        front.length + (id :: (size ++ contents)).length := by
      rw [List.length_cons, List.length_append]
      omega
    have hnumber : U32At wasm (front.length + 1) contents.length (front.length + 1 + size.length) :=
      hsize.u32At hbefore (by rw [List.length_append, List.length_singleton])
    rw [← hend] at hin hrest
    exact ⟨_, .other hget hid hnumber hin hrest⟩
  | custom hsec hne =>
    obtain ⟨size, start, nameLen, nameStart, hget, hsize, hend, hname, hle, hnamed, -⟩ :=
      hsec.parts hwasm
    rw [← hend] at hin hrest
    exact ⟨_, .named hget hsize hin hname hle (by rwa [hnamed]) hrest⟩

/-- And so are all such sections, by induction: the search goes past each. -/
theorem finds_behind (hsections : ∀ s ∈ sections, OtherSection target s)
    (hwasm : wasm = front ++ (sections.flatten ++ rest))
    (hrest : Finds (U32At wasm) wasm target (front ++ sections.flatten).length offs r) :
    ∃ offs', Finds (U32At wasm) wasm target front.length offs' r := by
  induction sections generalizing front with
  | nil =>
    rw [List.flatten_nil, List.append_nil] at hrest
    exact ⟨offs, hrest⟩
  | cons s sections ih =>
    obtain ⟨hs, hsections⟩ := List.forall_mem_cons.mp hsections
    rw [List.flatten_cons, List.append_assoc] at hwasm
    rw [List.flatten_cons, ← List.append_assoc] at hrest
    obtain ⟨offs', hfinds⟩ := ih hsections (by rw [hwasm, List.append_assoc]) hrest
    exact hs.finds hwasm hfinds

/-- **A custom section behind others** is found, with its contents. -/
theorem findSectionPayload_custom (hsections : ∀ s ∈ sections, OtherSection target s)
    (hsec : CustomSection target contents sec)
    (hlen : (moduleOf sections (sec ++ rest)).length < 2 ^ 63) :
    ∃ start, findSectionPayload ⟨0, moduleOf sections (sec ++ rest)⟩ target =
      .ok (some ⟨start, contents⟩) := by
  generalize hwasm : moduleOf sections (sec ++ rest) = wasm at hlen ⊢
  have hbehind : wasm = wasmMagic ++ wasmVersion ++ sections.flatten ++ (sec ++ rest) := by
    rw [← hwasm, moduleOf, ← List.append_assoc]
  obtain ⟨size, start, nameLen, nameStart, hget, hsize, hend, hname, hle, hnamed, hcontents⟩ :=
    hsec.parts hbehind
  have hin : start + size ≤ wasm.length := by
    simp only [hend, hbehind, List.length_append]
    omega
  have hfound := Finds.found hget hsize hin hname hle hnamed
  rw [hcontents] at hfound
  obtain ⟨offs, hfinds⟩ := finds_behind hsections hwasm.symm hfound
  have hpre : Preamble wasm := by
    rw [← hwasm, Preamble, moduleOf]
    rfl
  exact ⟨_, (findSectionPayload_eq_ok hlen).mpr
    ⟨hpre, offs, hfinds.congr fun off _ v next => U32At.lowAt⟩⟩

/-- **Round trip.** What can be declared is built, and a module with the image in a custom section
behind others is parsed into what was declared. -/
theorem parseFromWasm_build {kind : DriverKind} {exports : List (Bytes × FuncSig)}
    {imports : List (Bytes × Bytes × FuncSig)} (h : Declarable exports imports) :
    ∃ image, buildManifest (manifestSize exports.length imports.length) kind exports imports =
        some image ∧
      ∀ sections sec rest, (∀ s ∈ sections, OtherSection sectionName s) →
        CustomSection sectionName image sec →
        (moduleOf sections (sec ++ rest)).length < 2 ^ 63 →
        ∃ view, parseFromWasm (moduleOf sections (sec ++ rest)) = .ok view ∧
          view.kind = .ok kind ∧ view.head.exportCount = exports.length ∧
          view.head.importCount = imports.length ∧
          (view.exportDecls.map fun e => (trimNul e.name, FuncSig.fromRaw e.sig)) =
            (exports.map fun e => (e.1, some e.2)) ∧
          (view.importDecls.map fun im =>
              (trimNul im.module, trimNul im.name, FuncSig.fromRaw im.sig)) =
            imports.map fun im => (im.1, im.2.1, some im.2.2) := by
  refine ⟨manifestImage kind exports imports, buildManifest_eq (fun e he => (h.exports e he).room)
    fun im him => ⟨(h.imports im him).1.room, (h.imports im him).2.room⟩, ?_⟩
  intro sections sec rest hsections hsec hlen
  obtain ⟨start, hfound⟩ := findSectionPayload_custom hsections hsec hlen
  have hparse : parsePayload ⟨start, manifestImage kind exports imports⟩ =
      .ok (viewOf ⟨start, manifestImage kind exports imports⟩) := by
    rcases parsePayload_cases ⟨start, manifestImage kind exports imports⟩ with
      ⟨hok, -⟩ | ⟨e, -, hbad⟩
    · exact hok
    · exact absurd (wellFormed_image h) hbad
  have hhead : (viewOf ⟨start, manifestImage kind exports imports⟩).head =
      ⟨magic, manifestAbiVersion, kind.raw, exports.length, imports.length, 0⟩ :=
    @headOf_image kind exports imports start h
  refine ⟨viewOf ⟨start, manifestImage kind exports imports⟩, ?_, ?_, ?_, ?_, ?_, ?_⟩
  · rw [parseFromWasm, hfound]
    simpa only [Lib.Checked.ok_bind] using hparse
  · simp only [DriverManifestView.kind, hhead, DriverKind.fromRaw_raw]
  · rw [hhead]
  · rw [hhead]
  · rw [exportDecls_image h, List.map_map]
    refine List.map_congr_left fun e he => ?_
    simp [(h.exports e he).trimNul, FuncSig.fromRaw_raw]
  · rw [importDecls_image h, List.map_map]
    refine List.map_congr_left fun im him => ?_
    simp [(h.imports im him).1.trimNul, (h.imports im him).2.trimNul, FuncSig.fromRaw_raw]

/-- What a driver for a serial line declares. -/
def uartExports : List (Bytes × FuncSig) :=
  [(Lib.ascii "write".toList, .u32xU32I32), (Lib.ascii "_start".toList, .unitUnit)]

def uartImports : List (Bytes × Bytes × FuncSig) :=
  [(Lib.ascii "wari".toList, Lib.ascii "mmio_write8".toList, .u32xU32I32),
    (Lib.ascii "wari".toList, Lib.ascii "mmio_read8".toList, .u32U32)]

/-- Its manifest behind a section of types comes back. -/
theorem parseFromWasm_build_uart : Declarable uartExports uartImports ∧
    ∃ image view, buildManifest 208 .uart uartExports uartImports = some image ∧
      parseFromWasm (moduleOf [[1, 1, 0]] ([0, 0xE5, 1, 20] ++ sectionName ++ image ++ [])) =
        .ok view ∧ view.kind = .ok .uart := by
  have hfits : Declarable uartExports uartImports :=
    ⟨by decide, by decide, by decide, by decide⟩
  obtain ⟨image, hbuild, hparse⟩ := @parseFromWasm_build .uart _ _ hfits
  have htotal : manifestSize uartExports.length uartImports.length = 208 := by decide
  rw [htotal] at hbuild
  obtain rfl := (buildManifest_eq_some.mp hbuild).2
  have himage : (manifestImage .uart uartExports uartImports).length = 208 :=
    length_manifestImage hfits
  have hsize : EncodesU32 [0xE5, 1]
      ([20] ++ (sectionName ++ manifestImage .uart uartExports uartImports)).length := by
    have hname : sectionName.length = 20 := rfl
    rw [List.length_append, List.length_append, himage, hname]
    exact ⟨.more (by decide) (.last (by decide)), by decide, by decide⟩
  have hsec : CustomSection sectionName (manifestImage .uart uartExports uartImports)
      ([0, 0xE5, 1, 20] ++ sectionName ++ manifestImage .uart uartExports uartImports) :=
    ⟨[0xE5, 1], [20], hsize, ⟨.last (by decide), by decide, by decide⟩, rfl⟩
  have hlen : (moduleOf [[1, 1, 0]] ([0, 0xE5, 1, 20] ++ sectionName ++
      manifestImage .uart uartExports uartImports ++ [])).length < 2 ^ 63 := by
    simp only [moduleOf, List.length_append, himage]
    decide
  have htypes : ∀ s ∈ [([1, 1, 0] : Bytes)], OtherSection sectionName s := by
    rw [List.forall_mem_singleton]
    exact @OtherSection.plain sectionName 1 [1] [0] (by decide)
      ⟨.last (by decide), by decide, by decide⟩
  obtain ⟨view, hview, hkind, -⟩ := hparse _ _ [] htypes hsec hlen
  exact ⟨hfits, _, view, hbuild, hview, hkind⟩

end Module

end Wari.Manifest
