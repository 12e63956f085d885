import Wari.Lib.Keyed
import Wari.Signing

/-!
# The surface of a module

What a module exports and imports, as lists of names with types, read off its sections. The
walk over the payloads reads the same, where every function in these lists has a shape of the
table (`walkWasm_ok`).
-/

namespace Wari.Signing

open Lib (Bytes bind_eq_ok)
open Lib.Keyed (Known known_nil known_cons_some exists_known_cons_some not_known_cons_none
  insertAll)
open Manifest (FuncSig WasmValType WasmSigShape)
open Wasm (ValType FuncType)

/-! ## Modules

A module as its sections, in any order that the format allows, and its surface as lists. Nothing
here is from the check. -/

/-- A section of a module, with the items that matter for its surface. -/
inductive Section where
  | types (groups : List (List CompositeType))
  | imports (imports : List Import)
  | functions (types : List ℕ)
  | exports (exports : List Export)
  | other

namespace Section

/-- The id of a section, except for those that do not matter here. -/
def id : Section → Option ℕ
  | .types _ => some 1
  | .imports _ => some 2
  | .functions _ => some 3
  | .exports _ => some 7
  | .other => none

def payload : Section → Payload
  | .types gs => .typeSection (gs.map .ok)
  | .imports ims => .importSection (ims.map .ok)
  | .functions tys => .functionSection (tys.map .ok)
  | .exports exs => .exportSection (exs.map .ok)
  | .other => .other

def typeItems : Section → List CompositeType
  | .types gs => gs.flatten
  | _ => []

def importItems : Section → List Import
  | .imports ims => ims
  | _ => []

def functionItems : Section → List ℕ
  | .functions tys => tys
  | _ => []

def exportItems : Section → List Export
  | .exports exs => exs
  | _ => []

end Section

/-- Of these sections there is at most one each, in the order of their ids. -/
def InOrder (sections : List Section) : Prop := (sections.filterMap Section.id).Pairwise (· < ·)

instance (sections : List Section) : Decidable (InOrder sections) :=
  inferInstanceAs (Decidable (List.Pairwise _ _))

/-- The function types of imports, one for each import of a function. -/
def Import.function? (im : Import) : Option ((Bytes × Bytes) × ℕ) :=
  match im.ty with
  | .func typeIdx => some ((im.module, im.name), typeIdx)
  | .other => none

/-- A module in the binary format, with what the format guarantees as fields. -/
structure Module where
  sections : List Section
  inOrder : InOrder sections
  /-- the length of a vector is a number of 32 bits -/
  imports_lt : (sections.flatMap Section.importItems).length < 2 ^ 32

namespace Module

variable (m : Module)

/-- What the parser hands over, section by section. -/
def payloads : List (Except String Payload) := m.sections.map fun s => .ok s.payload

def types : List CompositeType := m.sections.flatMap Section.typeItems

def imports : List Import := m.sections.flatMap Section.importItems

def functions : List ℕ := m.sections.flatMap Section.functionItems

def exports : List Export := m.sections.flatMap Section.exportItems

/-- The function type under a type index; `none` is no such index, or another kind of type. -/
def funcType (typeIdx : ℕ) : Option FuncType :=
  match m.types[typeIdx]? with
  | some (.func f) => some f
  | _ => none

/-- The type indices of all functions: imported ones, then those of the module. -/
def funcs : List ℕ := (m.imports.filterMap Import.function?).map (·.2) ++ m.functions

/-- **The function imports** with their types, in the order in which they are. -/
def funcImports : List ((Bytes × Bytes) × Option FuncType) :=
  (m.imports.filterMap Import.function?).map fun e => (e.1, m.funcType e.2)

/-- **The function exports** with their types, in the order in which they are. -/
def funcExports : List (Bytes × Option FuncType) :=
  (m.exports.filter (·.kind = .func)).map fun ex => (ex.name, m.funcs[ex.index]?.bind m.funcType)

end Module

/-! ## The walk

In a module of sections in order the walk reads types first, then imports, functions and exports,
so each index it meets is known. -/

theorem InOrder.tail {s : Section} {sections : List Section} (h : InOrder (s :: sections)) :
    InOrder sections := by
  rw [InOrder, List.filterMap_cons] at h
  split at h
  · exact h
  · exact h.tail

/-- After a section come only those with a greater id. -/
theorem InOrder.lt {s t : Section} {sections : List Section} (h : InOrder (s :: sections))
    (ht : t ∈ sections) {i j : ℕ} (hi : s.id = some i) (hj : t.id = some j) : i < j := by
  rw [InOrder, List.filterMap_cons_some hi] at h
  exact List.rel_of_pairwise_cons h (List.mem_filterMap.mpr ⟨t, ht, hj⟩)

section Order

variable {s : Section} {sections : List Section} {i : ℕ}

/-- No items of an earlier section come later. -/
theorem InOrder.no_items {α : Type} {items : Section → List α} {j : ℕ}
    (h : InOrder (s :: sections)) (hi : s.id = some i) (hj : j ≤ i)
    (hitems : ∀ t, items t = [] ∨ t.id = some j) : sections.flatMap items = [] := by
  rw [List.flatMap_eq_nil_iff]
  intro t ht
  rcases hitems t with hnil | hid
  · exact hnil
  · exact absurd (h.lt ht hi hid) (Nat.not_lt.mpr hj)

theorem typeItems_id (t : Section) : t.typeItems = [] ∨ t.id = some 1 := by
  cases t <;> simp [Section.typeItems, Section.id]

theorem importItems_id (t : Section) : t.importItems = [] ∨ t.id = some 2 := by
  cases t <;> simp [Section.importItems, Section.id]

theorem functionItems_id (t : Section) : t.functionItems = [] ∨ t.id = some 3 := by
  cases t <;> simp [Section.functionItems, Section.id]

end Order

namespace Walker

@[simp] theorem addTypes_nil (w : Walker) : w.addTypes [] = w := by simp [addTypes]

theorem addTypes_append (w : Walker) (g g' : List CompositeType) :
    (w.addTypes g).addTypes g' = w.addTypes (g ++ g') := by
  simp [addTypes]

/-- Well-formed items are walked one after the other. -/
theorem items_ok {α : Type} (malformed : String → WalkError)
    (step : Walker → α → Except WalkError Walker) (w : Walker) (l : List α) :
    items malformed step w (l.map .ok) = l.foldlM step w := by
  rw [items, List.foldlM_map]
  rfl

theorem foldlM_addTypes (w : Walker) (gs : List (List CompositeType)) :
    gs.foldlM (fun w group => (.ok (w.addTypes group) : Except WalkError Walker)) w =
      .ok (w.addTypes gs.flatten) := by
  induction gs generalizing w with
  | nil => simp [pure, Except.pure]
  | cons g gs ih =>
    rw [List.foldlM_cons, List.flatten_cons, ← addTypes_append]
    exact ih _

theorem foldlM_addFunction (w : Walker) (tys : List ℕ) :
    tys.foldlM (fun w ty => (.ok (w.addFunction ty) : Except WalkError Walker)) w =
      .ok (tys.foldl addFunction w) := by
  induction tys generalizing w with
  | nil => rfl
  | cons ty tys ih => exact ih _

/-- **The walk over sections in order** reads types, imports, functions and exports one after
the other. -/
theorem foldlM_payload {sections : List Section} (h : InOrder sections) (w : Walker) :
    (sections.map fun s => .ok s.payload).foldlM payload w = (do
      let w ← (sections.flatMap Section.importItems).foldlM addImport
        (w.addTypes (sections.flatMap Section.typeItems))
      (sections.flatMap Section.exportItems).foldlM addExport
        ((sections.flatMap Section.functionItems).foldl addFunction w)) := by
  induction sections generalizing w with
  | nil => simp
  | cons s sections ih =>
    rw [List.map_cons, List.foldlM_cons]
    simp only [List.flatMap_cons]
    cases s with
    | types gs =>
      have hstep : payload w (.ok (Section.types gs).payload) = .ok (w.addTypes gs.flatten) :=
        (items_ok _ _ _ _).trans (foldlM_addTypes w gs)
      rw [hstep]
      exact (ih h.tail _).trans (by rw [addTypes_append]; rfl)
    | imports ims =>
      have hstep : payload w (.ok (Section.imports ims).payload) = ims.foldlM addImport w :=
        items_ok _ _ _ _
      have htypes := h.no_items rfl (by decide : 1 ≤ 2) typeItems_id
      have himports := h.no_items rfl (le_refl 2) importItems_id
      rw [hstep, htypes, himports]
      simp only [Section.typeItems, Section.importItems, Section.functionItems,
        Section.exportItems, List.nil_append, List.append_nil, addTypes_nil]
      refine congrArg _ (funext fun w => ?_)
      rw [ih h.tail, htypes, himports, addTypes_nil]
      rfl
    | functions tys =>
      have hstep : payload w (.ok (Section.functions tys).payload) =
          .ok (tys.foldl addFunction w) :=
        (items_ok _ _ _ _).trans (foldlM_addFunction w tys)
      have htypes := h.no_items rfl (by decide : 1 ≤ 3) typeItems_id
      have himports := h.no_items rfl (by decide : 2 ≤ 3) importItems_id
      rw [hstep, htypes, himports]
      refine (ih h.tail _).trans ?_
      rw [htypes, himports]
      simp only [Section.typeItems, Section.importItems, Section.functionItems,
        Section.exportItems, List.nil_append, addTypes_nil, List.foldlM_nil, pure_bind,
        List.foldl_append]
    | exports exs =>
      have hstep : payload w (.ok (Section.exports exs).payload) = exs.foldlM addExport w :=
        items_ok _ _ _ _
      have htypes := h.no_items rfl (by decide : 1 ≤ 7) typeItems_id
      have himports := h.no_items rfl (by decide : 2 ≤ 7) importItems_id
      have hfunctions := h.no_items rfl (by decide : 3 ≤ 7) functionItems_id
      rw [hstep, htypes, himports, hfunctions]
      simp only [Section.typeItems, Section.importItems, Section.functionItems,
        Section.exportItems, List.append_nil, addTypes_nil, List.foldlM_nil, pure_bind,
        List.foldl_nil, List.foldlM_append]
      refine congrArg _ (funext fun w => ?_)
      rw [ih h.tail, htypes, himports, hfunctions, addTypes_nil]
      rfl
    | other => exact ih h.tail w

/-- **The imports** are read to the end iff each function among them has a shape. -/
theorem foldlM_addImport {w w' : Walker} {ims : List Import} :
    ims.foldlM addImport w = .ok w' ↔
      ∃ l, Known ((ims.filterMap Import.function?).map fun e => (e.1, w.shapeAt e.2)) l ∧
        w' = { w with
          importFuncTypes := w.importFuncTypes ++ (ims.filterMap Import.function?).map (·.2)
          imports := insertAll w.imports l } := by
  induction ims generalizing w with
  | nil =>
    simp only [List.filterMap_nil, List.map_nil, known_nil, exists_eq_left, List.append_nil,
      List.foldlM_nil]
    exact ⟨fun h => (Except.ok.inj h).symm, fun h => congrArg _ h.symm⟩
  | cons im ims ih =>
    rw [List.foldlM_cons]
    rcases hty : im.ty with t | _
    · have hentry : im.function? = some ((im.module, im.name), t) := by
        simp [Import.function?, hty]
      rw [List.filterMap_cons_some hentry, List.map_cons, List.map_cons]
      rcases hs : w.shapeAt t with _ | sig
      · have hstep : addImport w im = .error (.importType im.module im.name t) := by
          simp [addImport, hty, hs]
        rw [hstep]
        refine iff_of_false (fun h => ?_) (by simp [not_known_cons_none])
        cases h
      · have hstep : addImport w im = .ok { w with
            importFuncTypes := w.importFuncTypes ++ [t]
            imports := w.imports.insert (im.module, im.name) sig } := by
          simp [addImport, hty, hs]
        rw [hstep, exists_known_cons_some]
        refine ih.trans ?_
        simp only [List.append_assoc, List.singleton_append]
        rfl
    · have hentry : im.function? = none := by
        simp [Import.function?, hty]
      have hstep : addImport w im = .ok w := by
        simp [addImport, hty]
      rw [List.filterMap_cons_none hentry, hstep]
      exact ih

/-- The shape of an exported function, as the walk resolves it. -/
def exportShape (w : Walker) (ex : Export) : Option WasmSigShape :=
  (w.typeIdx ex).toOption.bind w.shapeAt

theorem addExport_none {w : Walker} {ex : Export} (hkind : ex.kind = .func)
    (hs : w.exportShape ex = none) : ∃ e, addExport w ex = .error e := by
  rw [addExport, if_pos hkind]
  rcases ht : w.typeIdx ex with e | t
  · exact ⟨e, rfl⟩
  · rw [exportShape, ht] at hs
    replace hs : w.shapeAt t = none := hs
    exact ⟨.exportType ex.name t, by simp [bind, Except.bind, hs]⟩

theorem addExport_some {w : Walker} {ex : Export} {sig : WasmSigShape} (hkind : ex.kind = .func)
    (hs : w.exportShape ex = some sig) :
    addExport w ex = .ok { w with exports := w.exports.insert ex.name sig } := by
  rw [addExport, if_pos hkind]
  rcases ht : w.typeIdx ex with e | t
  · rw [exportShape, ht] at hs
    cases hs
  · rw [exportShape, ht] at hs
    replace hs : w.shapeAt t = some sig := hs
    simp [bind, Except.bind, hs]

/-- **The exports** are read to the end iff each function among them has a shape. -/
theorem foldlM_addExport {w w' : Walker} {exs : List Export} :
    exs.foldlM addExport w = .ok w' ↔
      ∃ l, Known ((exs.filter (·.kind = .func)).map fun ex => (ex.name, w.exportShape ex)) l ∧
        w' = { w with exports := insertAll w.exports l } := by
  induction exs generalizing w with
  | nil =>
    simp only [List.filter_nil, List.map_nil, known_nil, exists_eq_left, List.foldlM_nil]
    exact ⟨fun h => (Except.ok.inj h).symm, fun h => congrArg _ h.symm⟩
  | cons ex exs ih =>
    rw [List.foldlM_cons]
    by_cases hkind : ex.kind = .func
    · rw [List.filter_cons_of_pos (by simpa using hkind), List.map_cons]
      rcases hs : w.exportShape ex with _ | sig
      · obtain ⟨e, hstep⟩ := addExport_none hkind hs
        rw [hstep]
        refine iff_of_false (fun h => ?_) (by simp [not_known_cons_none])
        cases h
      · rw [addExport_some hkind hs, exists_known_cons_some]
        exact ih
    · rw [List.filter_cons_of_neg (by simpa using hkind), addExport, if_neg hkind]
      exact ih

end Walker

/-! ## Shapes

Function types that have a signature, and the others. -/

/-- The shape of a function type, where the table has it. -/
def funcShape (f : FuncType) : Option WasmSigShape := wasmSigShape f.params f.results

def valType : WasmValType → ValType
  | .i32 => .i32
  | .i64 => .i64

/-- The function type that a shape stands for. -/
def funcType (shape : WasmSigShape) : FuncType :=
  ⟨shape.params.map valType, shape.results.map valType⟩

theorem valType_injective : Function.Injective valType := by
  intro a b h
  cases a <;> cases b <;> cases h <;> rfl

theorem funcType_injective : Function.Injective funcType := by
  rintro ⟨ps, rs⟩ ⟨ps', rs'⟩ h
  obtain ⟨hp, hr⟩ := FuncType.mk.inj h
  obtain rfl := List.map_injective_iff.mpr valType_injective hp
  obtain rfl := List.map_injective_iff.mpr valType_injective hr
  rfl

theorem toWari_eq_some {v : ValType} {w : WasmValType} : toWari v = some w ↔ valType w = v := by
  cases v <;> cases w <;> simp [toWari, valType]

theorem mapM_toWari {l : List ValType} {l' : List WasmValType} :
    l.mapM toWari = some l' ↔ l'.map valType = l := by
  induction l generalizing l' with
  | nil => simp [eq_comm]
  | cons v l ih =>
    rw [List.mapM_cons]
    simp only [Option.bind_eq_bind, Option.bind_eq_some_iff, Option.pure_def, Option.some.injEq]
    constructor
    · rintro ⟨w, hw, l₁, hl, rfl⟩
      rw [List.map_cons, toWari_eq_some.mp hw, ih.mp hl]
    · intro h
      cases l' with
      | nil => cases h
      | cons w l' =>
        obtain ⟨hw, hl⟩ := List.cons.inj h
        exact ⟨w, toWari_eq_some.mpr hw, l', ih.mpr hl, rfl⟩

theorem mem_sigTable (sig : FuncSig) : sig ∈ sigTable := by
  cases sig <;> decide

/-- **The table** has a function type exactly if some signature has it, and then the shape is that
of the signature. -/
theorem funcShape_eq_some {f : FuncType} {shape : WasmSigShape} :
    funcShape f = some shape ↔ (∃ sig, FuncSig.wasmShape sig = shape) ∧ funcType shape = f := by
  obtain ⟨params, results⟩ := f
  rw [funcShape, wasmSigShape]
  simp only [Option.bind_eq_bind, Option.bind_eq_some_iff, mapM_toWari]
  constructor
  · rintro ⟨p, rfl, r, rfl, hfind⟩
    have hmem := List.mem_of_find?_eq_some hfind
    have hprop := List.find?_some hfind
    obtain ⟨sig, -, hsig⟩ := List.mem_map.mp hmem
    simp only [decide_eq_true_eq] at hprop
    exact ⟨⟨sig, hsig⟩, by rw [funcType, hprop.1, hprop.2]⟩
  · rintro ⟨⟨sig, rfl⟩, hf⟩
    obtain ⟨hp, hr⟩ := FuncType.mk.inj hf
    refine ⟨_, hp, _, hr, ?_⟩
    rcases hfind : (sigTable.map FuncSig.wasmShape).find? fun shape =>
        shape.params = sig.wasmShape.params ∧ shape.results = sig.wasmShape.results with _ | shape
    · have hnone := List.find?_eq_none.mp hfind sig.wasmShape
        (List.mem_map_of_mem (mem_sigTable sig))
      simp at hnone
    · have hprop := List.find?_some hfind
      simp only [decide_eq_true_eq] at hprop
      obtain ⟨ps, rs⟩ := shape
      obtain ⟨rfl, rfl⟩ := hprop
      exact hfind

/-! ## The surface

What the walk has collected in the end is the surface, entry by entry. -/

theorem Walker.foldl_addFunction (w : Walker) (tys : List ℕ) :
    tys.foldl addFunction w = { w with localFuncTypes := w.localFuncTypes ++ tys } := by
  induction tys generalizing w with
  | nil => simp
  | cons ty tys ih => simp [ih, addFunction]

section Surface

variable {m : Module} {w : Walker}

theorem shapeAt_eq (h : w.types = m.types.map CompositeType.shape) (typeIdx : ℕ) :
    w.shapeAt typeIdx = (m.funcType typeIdx).bind funcShape := by
  rw [Walker.shapeAt, h, List.getElem?_map, Module.funcType]
  rcases m.types[typeIdx]? with _ | ⟨f⟩ | _ <;> rfl

/-- The index of a function: imported ones come first. -/
theorem exportShape_eq (htypes : w.types = m.types.map CompositeType.shape)
    (himports : w.importFuncTypes = (m.imports.filterMap Import.function?).map (·.2))
    (hfunctions : w.localFuncTypes = m.functions) (ex : Export) :
    w.exportShape ex = (m.funcs[ex.index]?.bind m.funcType).bind funcShape := by
  have hcount : w.importCount = w.importFuncTypes.length := by
    refine Nat.mod_eq_of_lt (lt_of_le_of_lt ?_ m.imports_lt)
    rw [himports, List.length_map]
    exact List.length_filterMap_le _ _
  have hidx : (w.typeIdx ex).toOption = m.funcs[ex.index]? := by
    rw [Module.funcs, ← himports, ← hfunctions, Walker.typeIdx]
    split
    · rename_i hlt
      rw [hcount] at hlt
      rw [List.getElem?_append_left hlt, List.getElem?_eq_getElem hlt]
      rfl
    · rename_i hlt
      rw [hcount] at hlt ⊢
      rw [List.getElem?_append_right (Nat.not_lt.mp hlt)]
      rcases w.localFuncTypes[ex.index - w.importFuncTypes.length]? with _ | t <;> rfl
  rw [Walker.exportShape, hidx, Option.bind_assoc]
  exact congrArg _ (funext (shapeAt_eq htypes))

/-- **The walk** ends iff every function that is imported or exported has a shape of the table,
and then has the shapes of all of them. -/
theorem walkWasm_ok {surface : WasmFuncSurface} :
    walkWasm m.payloads = .ok surface ↔
      ∃ ims exs, Known (m.funcImports.map fun e => (e.1, e.2.bind funcShape)) ims ∧
        Known (m.funcExports.map fun e => (e.1, e.2.bind funcShape)) exs ∧
        surface = ⟨insertAll ∅ exs, insertAll ∅ ims⟩ := by
  have hims : (m.imports.filterMap Import.function?).map
        (fun e => (e.1, (Walker.empty.addTypes m.types).shapeAt e.2)) =
      m.funcImports.map fun e => (e.1, e.2.bind funcShape) := by
    rw [Module.funcImports, List.map_map]
    exact List.map_congr_left fun e _ => congrArg _ (shapeAt_eq rfl e.2)
  -- what there is when the exports are read
  have hafter (ims : List ((Bytes × Bytes) × WasmSigShape)) :
      (m.exports.filter (·.kind = .func)).map (fun ex => (ex.name, Walker.exportShape
        ⟨m.types.map CompositeType.shape, (m.imports.filterMap Import.function?).map (·.2),
          m.functions, ∅, insertAll ∅ ims⟩ ex)) =
        m.funcExports.map fun e => (e.1, e.2.bind funcShape) := by
    rw [Module.funcExports, List.map_map]
    exact List.map_congr_left fun ex _ => congrArg _ (exportShape_eq rfl rfl rfl ex)
  rw [walkWasm, bind_eq_ok, Module.payloads, Walker.foldlM_payload m.inOrder]
  simp only [bind_eq_ok]
  constructor
  · rintro ⟨w, ⟨w₁, himports, hexports⟩, hsurface⟩
    obtain ⟨ims, hknown, rfl⟩ := Walker.foldlM_addImport.mp himports
    rw [Walker.foldl_addFunction] at hexports
    obtain ⟨exs, hknown', rfl⟩ := Walker.foldlM_addExport.mp hexports
    exact ⟨ims, exs, hims ▸ hknown, hafter ims ▸ hknown', (Except.ok.inj hsurface).symm⟩
  · rintro ⟨ims, exs, hknown, hknown', rfl⟩
    refine ⟨⟨m.types.map CompositeType.shape, (m.imports.filterMap Import.function?).map (·.2),
      m.functions, insertAll ∅ exs, insertAll ∅ ims⟩,
      ⟨_, Walker.foldlM_addImport.mpr ⟨ims, hims ▸ hknown, rfl⟩, ?_⟩, rfl⟩
    rw [Walker.foldl_addFunction]
    exact Walker.foldlM_addExport.mpr ⟨exs, (hafter ims).symm ▸ hknown', rfl⟩

/-- Shapes that were read are those of the functions. -/
theorem known_funcTypes {κ : Type} {l : List (κ × Option FuncType)} {l' : List (κ × WasmSigShape)}
    (h : Known (l.map fun e => (e.1, e.2.bind funcShape)) l') :
    l = l'.map fun e => (e.1, some (funcType e.2)) := by
  induction l generalizing l' with
  | nil =>
    rw [known_nil.mp h]
    rfl
  | cons e l ih =>
    obtain ⟨k, t⟩ := e
    rw [List.map_cons] at h
    rcases ht : t.bind funcShape with _ | shape
    · rw [ht] at h
      exact absurd h not_known_cons_none
    · rw [ht] at h
      obtain ⟨l'', rfl, hl⟩ := known_cons_some.mp h
      obtain ⟨f, rfl, hf⟩ := Option.bind_eq_some_iff.mp ht
      rw [List.map_cons, ← ih hl, (funcShape_eq_some.mp hf).2]

end Surface

end Wari.Signing
