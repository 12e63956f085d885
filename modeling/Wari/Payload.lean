import Wari.Sections

/-!
# Payloads

What `parse_from_wasm` returns are slices of what the first custom section of the manifest's name
has after the name. No module makes it index outside of its slices, or walk forever.
-/

namespace Wari.Manifest

open Lib (Bytes Slice Checked Fault ofLe)

/-! ## The payload

What a payload has to be, told by its bytes, and what is returned for it. -/

section Payload

variable {payload : Slice}

/-- The fields of the header of a payload. -/
def headOf (payload : Slice) : ManifestHeader := .ofBytes (payload.bytes.take headerSize)

/-- Where the declared imports start, behind the exports. -/
def importsOff (payload : Slice) : ℕ := headerSize + (headOf payload).exportCount * exportDeclSize

/-- Where the declared imports end, and the manifest with them. -/
def manifestEnd (payload : Slice) : ℕ :=
  importsOff payload + (headOf payload).importCount * importDeclSize

/-- The slices of a payload: header, exports and imports, at their offsets. -/
def viewOf (payload : Slice) : DriverManifestView where
  header := ⟨payload.start, payload.bytes.take headerSize⟩
  exports := ⟨payload.start + headerSize,
    (payload.bytes.take (importsOff payload)).drop headerSize⟩
  imports := ⟨payload.start + importsOff payload,
    (payload.bytes.take (manifestEnd payload)).drop (importsOff payload)⟩

/-- What a payload has to be, field by field, to be accepted. -/
structure WellFormed (payload : Slice) : Prop where
  room : manifestEnd payload ≤ payload.bytes.length
  magic : (headOf payload).magic = magic
  abi : (headOf payload).abiVersion = manifestAbiVersion
  exportSigs : ∀ e ∈ (viewOf payload).exportDecls, (FuncSig.fromRaw e.sig).isSome = true
  importSigs : ∀ im ∈ (viewOf payload).importDecls, (FuncSig.fromRaw im.sig).isSome = true

theorem headerSize_le : headerSize ≤ importsOff payload := Nat.le_add_right _ _

theorem importsOff_le : importsOff payload ≤ manifestEnd payload := Nat.le_add_right _ _

/-- A count has 16 bits, whatever the bytes are. -/
theorem ofLe_take_two (bs : Bytes) : ofLe (bs.take 2) < 2 ^ 16 := by
  have hpow : 256 ^ (bs.take 2).length ≤ 256 ^ 2 :=
    Nat.pow_le_pow_right (by decide) (List.length_take_le _ _)
  exact (Lib.ofLe_lt _).trans_le hpow

theorem unknown_iff {α : Type} {sig : α → BitVec 8} {decls : List α} :
    (decls.any fun d => (FuncSig.fromRaw (sig d)).isNone) = true ↔
      ¬ ∀ d ∈ decls, (FuncSig.fromRaw (sig d)).isSome = true := by
  simp [List.any_eq_true]

/-- **What `parse_payload` returns**: the slices of a payload that is as it has to be, and
nothing for any other. -/
theorem parsePayload_cases (payload : Slice) :
    (parsePayload payload = .ok (viewOf payload) ∧ WellFormed payload) ∨
      ∃ e, parsePayload payload = refuse e ∧ ¬ WellFormed payload := by
  rw [parsePayload]
  by_cases hshort : payload.bytes.length < headerSize
  · rw [if_pos hshort]
    refine .inr ⟨_, rfl, fun h => ?_⟩
    exact absurd ((headerSize_le.trans importsOff_le).trans h.room) (Nat.not_le.mpr hshort)
  have hheader : (payload.sub 0 headerSize : Parse Slice) =
      .ok ⟨payload.start, payload.bytes.take headerSize⟩ :=
    Slice.sub_ok (Nat.zero_le _) (Nat.not_lt.mp hshort)
  rw [if_neg hshort, hheader]
  simp only [Lib.Checked.ok_bind]
  have hhead : ManifestHeader.ofBytes (payload.bytes.take headerSize) = headOf payload := rfl
  rw [hhead]
  by_cases hmagic : (headOf payload).magic = magic
  swap
  · rw [if_pos hmagic]
    exact .inr ⟨_, rfl, fun h => hmagic h.magic⟩
  rw [if_neg (not_not.mpr hmagic)]
  by_cases habi : (headOf payload).abiVersion = manifestAbiVersion
  swap
  · rw [if_pos habi]
    exact .inr ⟨_, rfl, fun h => habi h.abi⟩
  rw [if_neg (not_not.mpr habi)]
  -- the counts are too small for the products and sums to wrap
  have hexports : (headOf payload).exportCount < 2 ^ 16 := ofLe_take_two _
  have himports : (headOf payload).importCount < 2 ^ 16 := ofLe_take_two _
  have hesize : checkedMul (headOf payload).exportCount exportDeclSize =
      .ok ((headOf payload).exportCount * exportDeclSize) := by
    rw [checkedMul, exportDeclSize, nameMax, if_pos (by omega)]
  have hioff : checkedAdd headerSize ((headOf payload).exportCount * exportDeclSize) =
      .ok (importsOff payload) := by
    rw [checkedAdd, importsOff, headerSize, exportDeclSize, nameMax, if_pos (by omega)]
  have hisize : checkedMul (headOf payload).importCount importDeclSize =
      .ok ((headOf payload).importCount * importDeclSize) := by
    rw [checkedMul, importDeclSize, moduleMax, nameMax, if_pos (by omega)]
  have htotal : checkedAdd (importsOff payload) ((headOf payload).importCount * importDeclSize) =
      .ok (manifestEnd payload) := by
    rw [checkedAdd, manifestEnd, importsOff, headerSize, exportDeclSize, importDeclSize, moduleMax,
      nameMax, if_pos (by omega)]
  simp only [hesize, hioff, hisize, htotal, Lib.Checked.ok_bind]
  by_cases hroom : payload.bytes.length < manifestEnd payload
  · rw [if_pos hroom]
    exact .inr ⟨_, rfl, fun h => absurd h.room (Nat.not_le.mpr hroom)⟩
  have hroom' := Nat.not_lt.mp hroom
  have hesub : (payload.sub headerSize (importsOff payload) : Parse Slice) =
      .ok (viewOf payload).exports := Slice.sub_ok headerSize_le (importsOff_le.trans hroom')
  have hisub : (payload.sub (importsOff payload) (manifestEnd payload) : Parse Slice) =
      .ok (viewOf payload).imports := Slice.sub_ok importsOff_le hroom'
  have hview : (⟨⟨payload.start, payload.bytes.take headerSize⟩, (viewOf payload).exports,
      (viewOf payload).imports⟩ : DriverManifestView) = viewOf payload := rfl
  rw [if_neg hroom, hesub]
  simp only [Lib.Checked.ok_bind, hisub, hview, unknown_iff]
  by_cases he : ∀ e ∈ (viewOf payload).exportDecls, (FuncSig.fromRaw e.sig).isSome = true
  swap
  · rw [if_pos he]
    exact .inr ⟨_, rfl, fun h => he h.exportSigs⟩
  rw [if_neg (not_not.mpr he)]
  by_cases hi : ∀ im ∈ (viewOf payload).importDecls, (FuncSig.fromRaw im.sig).isSome = true
  swap
  · rw [if_pos hi]
    exact .inr ⟨_, rfl, fun h => hi h.importSigs⟩
  rw [if_neg (not_not.mpr hi)]
  exact .inl ⟨rfl, hroom', hmagic, habi, he, hi⟩

/-- The slices of a well-formed payload lie in the payload. -/
theorem WellFormed.partOf (h : WellFormed payload) :
    (viewOf payload).header.PartOf payload ∧ (viewOf payload).exports.PartOf payload ∧
      (viewOf payload).imports.PartOf payload := by
  have himports := importsOff_le.trans h.room
  exact ⟨Slice.partOf_take (Nat.zero_le _) (headerSize_le.trans himports),
    Slice.partOf_take headerSize_le himports, Slice.partOf_take importsOff_le h.room⟩

end Payload

/-! ## The module

The walk over the sections always moves up, so it ends. -/

section Module

variable {wasm : Bytes}

/-- **What `parse_from_wasm` returns**: the slices of the payload that is found, if it is as it
has to be. -/
theorem parseFromWasm_cases (hlen : wasm.length < 2 ^ 63) :
    (∃ offs payload, Finds (LowAt wasm) wasm sectionName wasmPreambleLen offs (some payload) ∧
      WellFormed payload ∧ parseFromWasm wasm = .ok (viewOf payload)) ∨
      ∃ e, parseFromWasm wasm = refuse e := by
  rw [parseFromWasm]
  rcases findSectionPayload_cases hlen sectionName with ⟨offs, r, hcode, -, hfinds⟩ | ⟨e, hcode, -⟩
  · rw [hcode]
    cases r with
    | none => exact .inr ⟨_, rfl⟩
    | some payload =>
      rcases parsePayload_cases payload with ⟨hparse, hwell⟩ | ⟨e, hparse, -⟩
      · exact .inl ⟨offs, payload, hfinds, hwell, hparse⟩
      · exact .inr ⟨e, hparse⟩
  · rw [hcode]
    exact .inr ⟨e, rfl⟩

/-- **Lookup is total**: whatever the bytes, the parser returns or refuses; a turn of the walk
ends it or goes on further up, within the module; and what is returned lies in the payload of the
first custom section of the manifest's name. Where a walk by the numbers of the format finds one
too, it is this one. -/
theorem parseFromWasm_total {wasm : Bytes} (hlen : wasm.length < 2 ^ 63) :
    (parseFromWasm wasm).Safe ∧
      (∀ target turns i, i < wasm.length →
        (∃ payload, findFrom ⟨0, wasm⟩ target (turns + 1) i = .ok (some payload)) ∨
        (∃ e, findFrom ⟨0, wasm⟩ target (turns + 1) i = refuse e) ∨
        ∃ j, i < j ∧ j ≤ wasm.length ∧
          findFrom ⟨0, wasm⟩ target (turns + 1) i = findFrom ⟨0, wasm⟩ target turns j) ∧
      ∀ view, parseFromWasm wasm = .ok view →
        ∃ offs payload, Finds (LowAt wasm) wasm sectionName wasmPreambleLen offs (some payload) ∧
          payload.PartOf ⟨0, wasm⟩ ∧ view.header.PartOf payload ∧ view.exports.PartOf payload ∧
          view.imports.PartOf payload ∧
          ∀ offs' r, Finds (U32At wasm) wasm sectionName wasmPreambleLen offs' r →
            r = some payload := by
  refine ⟨fun f hf => ?_, fun target turns i hi => ?_, fun view hview => ?_⟩
  · rcases parseFromWasm_cases hlen with ⟨offs, payload, -, -, hcode⟩ | ⟨e, hcode⟩
    · rw [hcode] at hf
      cases hf
    · rw [hcode] at hf
      exact ⟨e, (Except.error.inj hf).symm⟩
  · rcases findFrom_turn hlen hi target turns with ⟨offs, payload, hloop, -⟩ | ⟨e, hloop, -⟩ |
      ⟨j, here, hij, hj, hloop, -⟩
    · exact .inl ⟨payload, hloop⟩
    · exact .inr (.inl ⟨e, hloop⟩)
    · exact .inr (.inr ⟨j, hij, hj, hloop⟩)
  · rcases parseFromWasm_cases hlen with ⟨offs, payload, hfinds, hwell, hcode⟩ | ⟨e, hcode⟩
    · rw [hcode] at hview
      obtain rfl := Except.ok.inj hview
      obtain ⟨hheader, hexports, himports⟩ := hwell.partOf
      exact ⟨offs, payload, hfinds, hfinds.partOf rfl, hheader, hexports, himports,
        fun offs' r hformat => ((hfinds.u32At_iff _ _).mp hformat).2.1⟩
    · rw [hcode] at hview
      cases hview

/-- A module with nothing in it but a manifest that declares nothing. -/
def bare : Bytes :=
  wasmMagic ++ wasmVersion ++ [0, 37, 20] ++ sectionName ++
    (magic ++ [2, 0, 1, 0, 0, 0, 0, 0, 0, 0, 0, 0])

/-- The manifest of a bare module is returned, with all of its slices inside. -/
theorem parseFromWasm_total_bare : bare.length < 2 ^ 63 ∧ (parseFromWasm bare).Safe ∧
    ∃ view payload, parseFromWasm bare = .ok view ∧ payload.PartOf ⟨0, bare⟩ ∧
      view.header.PartOf payload := by
  have hlen : bare.length < 2 ^ 63 := by decide
  obtain ⟨hsafe, -, hview⟩ := parseFromWasm_total hlen
  obtain ⟨offs, payload, -, hpart, hheader, -⟩ := hview ⟨⟨31, bare.drop 31⟩, ⟨47, []⟩, ⟨47, []⟩⟩ rfl
  exact ⟨hlen, hsafe, _, payload, rfl, hpart, hheader⟩

end Module

end Wari.Manifest
