import Wari.Surface

/-!
# When a module is signed

The declarations of the manifest against the surface of the module. The check compares the
last entries of each name (`verifyManifest_ok`), and so what it needs to be exact is that no
entry is overlooked for a later one of its name, and that the last ones are the same where the
entries are (`verifyManifest_exact_iff`).
-/

namespace Wari.Signing

open Lib (Bytes bind_eq_ok forM_eq_ok mapError_eq_ok ascii)
open Lib.Keyed
open Manifest (DriverManifestView FuncSig WasmSigShape ExportDecl ImportDecl parseFromWasm
  parseFromWasm_sigs)
open Wasm (FuncType)

/-! ## What is declared

The manifest's declarations and the module's functions, each as a list of names with shapes, in
the order they are in. -/

/-- **The declared exports** of a manifest, each with the type that its signature byte stands for.
-/
def declaredExports (view : DriverManifestView) : List (Bytes × Option FuncType) :=
  view.exportDecls.map fun e =>
    (exportKey e, (FuncSig.fromRaw e.sig).map fun s => funcType s.wasmShape)

/-- **The declared imports** of a manifest, each with the type that its signature byte stands for.
-/
def declaredImports (view : DriverManifestView) : List ((Bytes × Bytes) × Option FuncType) :=
  view.importDecls.map fun im =>
    (importKey im, (FuncSig.fromRaw im.sig).map fun s => funcType s.wasmShape)

section Side

variable {α κ : Type} [Ord κ]

theorem foldlM_declare {key : α → κ} {sig : α → BitVec 8} {unknown : κ → BitVec 8 → VerifyError}
    {decls : List α} {m m' : Std.TreeMap κ FuncSig} :
    decls.foldlM (declare key sig unknown) m = .ok m' ↔
      ∃ l, Known (decls.map fun d => (key d, FuncSig.fromRaw (sig d))) l ∧ m' = insertAll m l := by
  induction decls generalizing m with
  | nil =>
    simp only [List.map_nil, known_nil, exists_eq_left, List.foldlM_nil]
    exact ⟨fun h => (Except.ok.inj h).symm, fun h => congrArg _ h.symm⟩
  | cons d decls ih =>
    rw [List.foldlM_cons, List.map_cons]
    rcases hs : FuncSig.fromRaw (sig d) with _ | s
    · have hstep : declare key sig unknown m d = .error (unknown (key d) (sig d)) := by
        simp [declare, hs]
      rw [hstep]
      refine iff_of_false (fun h => ?_) (by simp [not_known_cons_none])
      cases h
    · have hstep : declare key sig unknown m d = .ok (m.insert (key d) s) := by
        simp [declare, hs]
      rw [hstep, exists_known_cons_some]
      exact ih

variable [Std.TransOrd κ] [Std.LawfulEqOrd κ] {declared : Std.TreeMap κ FuncSig}
  {actual : Std.TreeMap κ WasmSigShape}

theorem checkDeclared_ok {missing : κ → VerifyError}
    {mismatch : κ → FuncSig → WasmSigShape → WasmSigShape → VerifyError} :
    checkDeclared missing mismatch declared actual = .ok () ↔
      ∀ (k : κ) (s : FuncSig), declared[k]? = some s → actual[k]? = some s.wasmShape := by
  rw [checkDeclared, forM_eq_ok]
  constructor
  · intro h k s hk
    have he := h (k, s) (Std.TreeMap.mem_toList_iff_getElem?_eq_some.mpr hk)
    dsimp only at he
    split at he
    · rename_i shape hshape
      by_cases heq : shape = s.wasmShape
      · rw [hshape, heq]
      · rw [if_neg heq] at he
        cases he
    · cases he
  · rintro h ⟨k, s⟩ he
    have hk := h k s (Std.TreeMap.mem_toList_iff_getElem?_eq_some.mp he)
    simp [hk]

theorem checkUndeclared_ok {undeclared : κ → VerifyError} :
    checkUndeclared undeclared declared actual = .ok () ↔ ∀ k, k ∈ actual → k ∈ declared := by
  rw [checkUndeclared, forM_eq_ok]
  constructor
  · intro h k hk
    obtain ⟨shape, hshape⟩ :=
      Option.isSome_iff_exists.mp (Std.TreeMap.mem_iff_isSome_getElem?.mp hk)
    have he := h (k, shape) (Std.TreeMap.mem_toList_iff_getElem?_eq_some.mpr hshape)
    by_cases hc : declared.contains k
    · exact Std.TreeMap.contains_iff_mem.mp hc
    · rw [if_neg hc] at he
      cases he
  · rintro h ⟨k, shape⟩ he
    have hk := Std.TreeMap.mem_toList_iff_getElem?_eq_some.mp he
    refine if_pos (Std.TreeMap.contains_iff_mem.mpr (h k ?_))
    rw [Std.TreeMap.mem_iff_isSome_getElem?, hk]
    rfl

/-- **One side of the check**: the last entry of each name is the same. -/
theorem checks_ok [DecidableEq κ] (missing : κ → VerifyError)
    (mismatch : κ → FuncSig → WasmSigShape → WasmSigShape → VerifyError)
    (undeclared : κ → VerifyError) {l : List (κ × FuncSig)} {l' : List (κ × WasmSigShape)} :
    (checkDeclared missing mismatch (insertAll ∅ l) (insertAll ∅ l') = .ok () ∧
      checkUndeclared undeclared (insertAll ∅ l) (insertAll ∅ l') = .ok ()) ↔
      SameLast (l.map fun e => (e.1, some (funcType e.2.wasmShape)))
        (l'.map fun e => (e.1, some (funcType e.2))) := by
  have hinj : Function.Injective fun shape => some (funcType shape) :=
    (Option.some_injective _).comp funcType_injective
  have hget {ν : Type} (l : List (κ × ν)) (k : κ) : (insertAll ∅ l)[k]? = lastOf l k := by
    rw [getElem?_insertAll, Std.TreeMap.getElem?_emptyc, Option.or_none]
  simp only [checkDeclared_ok, checkUndeclared_ok, Std.TreeMap.mem_iff_isSome_getElem?, hget]
  constructor
  · rintro ⟨hdeclared, hundeclared⟩ k
    rw [lastOf_map fun s : FuncSig => some (funcType s.wasmShape),
      lastOf_map fun shape => some (funcType shape)]
    rcases hk : lastOf l k with _ | s
    · rcases hk' : lastOf l' k with _ | shape
      · rfl
      · have h := hundeclared k (by rw [hk']; rfl)
        rw [hk] at h
        cases h
    · rw [hdeclared k s hk]
      rfl
  · intro h
    have hlast : ∀ k, (lastOf l k).map FuncSig.wasmShape = lastOf l' k := by
      intro k
      have hk := h k
      rw [lastOf_map fun s : FuncSig => some (funcType s.wasmShape),
        lastOf_map fun shape => some (funcType shape)] at hk
      refine Option.map_injective hinj ?_
      rw [← hk, Option.map_map]
      rfl
    refine ⟨fun k s hk => ?_, fun k hk => ?_⟩
    · rw [← hlast, hk]
      rfl
    · rwa [← hlast, Option.isSome_map] at hk

end Side

/-! ## When a module is signed

Both sides go into maps by name, so what is compared is the last entry of each name. From that
comparison back to the sets of entries is the question. -/

/-- The module carries this manifest, of a kind there is. -/
def Carries (wasm : Bytes) (view : DriverManifestView) : Prop :=
  parseFromWasm wasm = .ok view ∧ ∃ kind, view.kind = .ok kind

/-- A shape of the table of signatures, as opposed to any other function type. -/
def InTable (t : Option FuncType) : Prop := ∃ sig, t = some (funcType (FuncSig.wasmShape sig))

/-- All functions of the module have shapes of the table. -/
structure Module.Readable (m : Module) : Prop where
  exports : ∀ e ∈ m.funcExports, InTable e.2
  imports : ∀ e ∈ m.funcImports, InTable e.2

theorem inTable_iff {t : Option FuncType} : InTable t ↔ (t.bind funcShape).isSome := by
  rw [Option.isSome_iff_exists]
  constructor
  · rintro ⟨sig, rfl⟩
    exact ⟨_, funcShape_eq_some.mpr ⟨⟨sig, rfl⟩, rfl⟩⟩
  · rintro ⟨shape, h⟩
    obtain ⟨f, rfl, hf⟩ := Option.bind_eq_some_iff.mp h
    obtain ⟨⟨sig, rfl⟩, rfl⟩ := funcShape_eq_some.mp hf
    exact ⟨sig, rfl⟩

theorem exists_known_shapes {κ : Type} {l : List (κ × Option FuncType)} :
    (∃ l', Known (l.map fun e => (e.1, e.2.bind funcShape)) l') ↔ ∀ e ∈ l, InTable e.2 := by
  rw [exists_known, List.forall_mem_map]
  exact forall₂_congr fun e _ => inTable_iff.symm

/-- Declarations whose signature bytes were all known, as a list with their types. -/
theorem known_declared {α κ : Type} {decls : List α} {key : α → κ} {sig : α → BitVec 8}
    {l : List (κ × FuncSig)} (h : Known (decls.map fun d => (key d, FuncSig.fromRaw (sig d))) l) :
    decls.map (fun d => (key d, (FuncSig.fromRaw (sig d)).map fun s => funcType s.wasmShape)) =
      l.map fun e => (e.1, some (funcType e.2.wasmShape)) := by
  have hmap := congrArg (List.map fun e : κ × Option FuncSig =>
    (e.1, e.2.map fun s => funcType s.wasmShape)) h
  rw [List.map_map, List.map_map] at hmap
  exact hmap

/-- The surface of a module against its manifest. -/
theorem crossCheck_ok {wasm : Bytes} {view : DriverManifestView}
    (hview : parseFromWasm wasm = .ok view)
    {exs : List (Bytes × WasmSigShape)} {ims : List ((Bytes × Bytes) × WasmSigShape)} :
    crossCheck view ⟨insertAll ∅ exs, insertAll ∅ ims⟩ = .ok () ↔
      SameLast (declaredExports view) (exs.map fun e => (e.1, some (funcType e.2))) ∧
        SameLast (declaredImports view) (ims.map fun e => (e.1, some (funcType e.2))) := by
  obtain ⟨hexports, himports⟩ := parseFromWasm_sigs hview
  obtain ⟨des, hdes⟩ : ∃ l, Known
      (view.exportDecls.map fun e => (exportKey e, FuncSig.fromRaw e.sig)) l :=
    exists_known.mpr (by simpa using hexports)
  obtain ⟨dis, hdis⟩ : ∃ l, Known
      (view.importDecls.map fun im => (importKey im, FuncSig.fromRaw im.sig)) l :=
    exists_known.mpr (by simpa using himports)
  have hcollect : collect exportKey ExportDecl.sig .exportSig view.exportDecls =
      .ok (insertAll ∅ des) := foldlM_declare.mpr ⟨des, hdes, rfl⟩
  have hcollect' : collect importKey ImportDecl.sig .importSig view.importDecls =
      .ok (insertAll ∅ dis) := foldlM_declare.mpr ⟨dis, hdis, rfl⟩
  have hdeclared : declaredExports view =
      des.map fun e => (e.1, some (funcType e.2.wasmShape)) := known_declared hdes
  have hdeclared' : declaredImports view =
      dis.map fun e => (e.1, some (funcType e.2.wasmShape)) := known_declared hdis
  rw [crossCheck, hcollect, hcollect', hdeclared, hdeclared']
  simp only [bind_eq_ok, Except.ok.injEq, exists_eq_left']
  constructor
  · rintro ⟨⟨⟩, hexs, ⟨⟩, hexs', ⟨⟩, hims, hims'⟩
    exact ⟨(checks_ok _ _ _).mp ⟨hexs, hexs'⟩, (checks_ok _ _ _).mp ⟨hims, hims'⟩⟩
  · rintro ⟨hexs, hims⟩
    obtain ⟨hexs, hexs'⟩ := (checks_ok .exportMissing .exportShape .exportUndeclared).mpr hexs
    obtain ⟨hims, hims'⟩ := (checks_ok .importMissing .importShape .importUndeclared).mpr hims
    exact ⟨(), hexs, (), hexs', (), hims, hims'⟩

/-- **A module is signed** iff it carries a manifest, all shapes are in the table, and under
each name the last declaration and the last function have one shape. -/
theorem verifyManifest_ok {parseAll : Bytes → List (Except String Payload)} {wasm : Bytes}
    {m : Module} (hread : parseAll wasm = m.payloads) :
    verifyManifest parseAll wasm = .ok () ↔
      ∃ view, Carries wasm view ∧ m.Readable ∧ SameLast (declaredExports view) m.funcExports ∧
        SameLast (declaredImports view) m.funcImports := by
  rw [verifyManifest, bind_eq_ok]
  simp only [bind_eq_ok, mapError_eq_ok, hread, walkWasm_ok]
  constructor
  · rintro ⟨view, hview, kind, hkind, _, ⟨ims, exs, him, hex, rfl⟩, hcheck⟩
    have hlast := (crossCheck_ok hview).mp hcheck
    rw [← known_funcTypes hex, ← known_funcTypes him] at hlast
    exact ⟨view, ⟨hview, kind, hkind⟩,
      ⟨exists_known_shapes.mp ⟨exs, hex⟩, exists_known_shapes.mp ⟨ims, him⟩⟩, hlast⟩
  · rintro ⟨view, ⟨hview, kind, hkind⟩, hreadable, hlast⟩
    obtain ⟨exs, hex⟩ := exists_known_shapes.mpr hreadable.exports
    obtain ⟨ims, him⟩ := exists_known_shapes.mpr hreadable.imports
    refine ⟨view, hview, kind, hkind, _, ⟨ims, exs, him, hex, rfl⟩, (crossCheck_ok hview).mpr ?_⟩
    rw [← known_funcTypes hex, ← known_funcTypes him]
    exact hlast

/-- What the manifest declares is what the module exports and imports, as sets of names with their
shapes. This is what the documentation of the check promises. -/
def Exact (wasm : Bytes) (m : Module) : Prop :=
  ∃ view, Carries wasm view ∧ SameEntries (declaredExports view) m.funcExports ∧
    SameEntries (declaredImports view) m.funcImports

/-- Under each name the last entries are the same, but an entry that a later one of its name
shadows is not on the other side. The check keeps one entry per name, so it cannot see it. -/
structure Overlooks (view : DriverManifestView) (m : Module) : Prop where
  readable : m.Readable
  exports : SameLast (declaredExports view) m.funcExports
  imports : SameLast (declaredImports view) m.funcImports
  hidden : Hides (declaredExports view) m.funcExports ∨ Hides m.funcExports (declaredExports view) ∨
    Hides (declaredImports view) m.funcImports ∨ Hides m.funcImports (declaredImports view)

/-- The entries are the same, but under some name not the last ones, and the check compares the
last ones. -/
structure Reorders (view : DriverManifestView) (m : Module) : Prop where
  exports : SameEntries (declaredExports view) m.funcExports
  imports : SameEntries (declaredImports view) m.funcImports
  differs : ¬ SameLast (declaredExports view) m.funcExports ∨
    ¬ SameLast (declaredImports view) m.funcImports

/-- A manifest that was accepted declares shapes of the table only. -/
theorem declared_inTable {wasm : Bytes} {view : DriverManifestView}
    (h : parseFromWasm wasm = .ok view) :
    (∀ e ∈ declaredExports view, InTable e.2) ∧ ∀ e ∈ declaredImports view, InTable e.2 := by
  obtain ⟨hexports, himports⟩ := parseFromWasm_sigs h
  rw [declaredExports, declaredImports, List.forall_mem_map, List.forall_mem_map]
  refine ⟨fun e he => ?_, fun im him => ?_⟩
  · obtain ⟨sig, hsig⟩ := Option.isSome_iff_exists.mp (hexports e he)
    exact ⟨sig, by rw [hsig]; rfl⟩
  · obtain ⟨sig, hsig⟩ := Option.isSome_iff_exists.mp (himports im him)
    exact ⟨sig, by rw [hsig]; rfl⟩

/-- **What a signed module needs**: every function it imports or exports is declared with its
type, except where a later one of the same name has another type. -/
theorem signed_declared {parseAll : Bytes → List (Except String Payload)} {wasm : Bytes}
    {m : Module} (hread : parseAll wasm = m.payloads)
    (h : verifyManifest parseAll wasm = .ok ()) :
    ∃ view, Carries wasm view ∧
      (∀ e ∈ m.funcExports, e ∈ declaredExports view ∨ Shadowed m.funcExports e) ∧
      ∀ e ∈ m.funcImports, e ∈ declaredImports view ∨ Shadowed m.funcImports e := by
  obtain ⟨view, hview, -, hexs, hims⟩ := (verifyManifest_ok hread).mp h
  exact ⟨view, hview, fun e => hexs.symm.mem, fun e => hims.symm.mem⟩

theorem Carries.unique {wasm : Bytes} {view view' : DriverManifestView} (h : Carries wasm view)
    (h' : Carries wasm view') : view' = view :=
  Except.ok.inj (h'.1.symm.trans h.1)

/-- Of the one manifest that a module carries. -/
theorem Carries.exists_iff {wasm : Bytes} {view : DriverManifestView} (h : Carries wasm view)
    {p : DriverManifestView → Prop} : (∃ view, Carries wasm view ∧ p view) ↔ p view := by
  constructor
  · rintro ⟨view', h', hp⟩
    rwa [h.unique h'] at hp
  · exact fun hp => ⟨view, h, hp⟩

/-- **Comparing the maps**, as the source does, instead of the lists themselves: the two agree
exactly where nothing is overlooked or reordered. -/
theorem exact_iff {wasm : Bytes} {view : DriverManifestView} {m : Module}
    (h : Carries wasm view) :
    (m.Readable ∧ SameLast (declaredExports view) m.funcExports ∧
        SameLast (declaredImports view) m.funcImports ↔
      SameEntries (declaredExports view) m.funcExports ∧
        SameEntries (declaredImports view) m.funcImports) ↔
      ¬ Overlooks view m ∧ ¬ Reorders view m := by
  obtain ⟨htable, htable'⟩ := declared_inTable h.1
  constructor
  · intro hiff
    refine ⟨fun ho => ?_, fun hr => ?_⟩
    · obtain ⟨hexs, hims⟩ := hiff.mp ⟨ho.readable, ho.exports, ho.imports⟩
      obtain ⟨he, he'⟩ := ho.exports.sameEntries_iff.mp hexs
      obtain ⟨hi, hi'⟩ := ho.imports.sameEntries_iff.mp hims
      rcases ho.hidden with hh | hh | hh | hh
      · exact he hh
      · exact he' hh
      · exact hi hh
      · exact hi' hh
    · obtain ⟨-, hexs, hims⟩ := hiff.mpr ⟨hr.exports, hr.imports⟩
      rcases hr.differs with hd | hd
      · exact hd hexs
      · exact hd hims
  · rintro ⟨ho, hr⟩
    constructor
    · rintro ⟨hreadable, hexs, hims⟩
      have hnot := fun hh => ho ⟨hreadable, hexs, hims, hh⟩
      refine ⟨hexs.sameEntries_iff.mpr ⟨fun hh => hnot (.inl hh), fun hh => hnot (.inr (.inl hh))⟩,
        hims.sameEntries_iff.mpr ⟨fun hh => hnot (.inr (.inr (.inl hh))),
          fun hh => hnot (.inr (.inr (.inr hh)))⟩⟩
    · rintro ⟨hexs, hims⟩
      refine ⟨⟨fun e he => htable e ((hexs e).mpr he), fun e he => htable' e ((hims e).mpr he)⟩,
        ?_, ?_⟩
      · exact by_contra fun hd => hr ⟨hexs, hims, .inl hd⟩
      · exact by_contra fun hd => hr ⟨hexs, hims, .inr hd⟩

/-- The check against a manifest that the module carries. -/
theorem Carries.verify_iff {parseAll : Bytes → List (Except String Payload)} {wasm : Bytes}
    {view : DriverManifestView} {m : Module} (h : Carries wasm view)
    (hread : parseAll wasm = m.payloads) :
    (verifyManifest parseAll wasm = .ok () ↔ Exact wasm m) ↔
      ¬ Overlooks view m ∧ ¬ Reorders view m := by
  rw [verifyManifest_ok hread, Exact, h.exists_iff, h.exists_iff, exact_iff h]

/-- Without a manifest that can be read nothing is verified. -/
theorem verify_of_not_carries {parseAll : Bytes → List (Except String Payload)} {wasm : Bytes}
    {m : Module} (h : ¬ ∃ view, Carries wasm view) (hread : parseAll wasm = m.payloads) :
    verifyManifest parseAll wasm = .ok () ↔ Exact wasm m := by
  rw [verifyManifest_ok hread]
  refine iff_of_false ?_ ?_
  · rintro ⟨view, hview, -⟩
    exact h ⟨view, hview⟩
  · rintro ⟨view, hview, -⟩
    exact h ⟨view, hview⟩

/-- **Where no name has two shapes** the check is exact: nothing can be overlooked when each name
comes once. -/
theorem verify_of_unambiguous {parseAll : Bytes → List (Except String Payload)} {wasm : Bytes}
    {m : Module} (hread : parseAll wasm = m.payloads)
    (hexports : Unambiguous m.funcExports) (himports : Unambiguous m.funcImports)
    (hdeclared : ∀ view, Carries wasm view →
      Unambiguous (declaredExports view) ∧ Unambiguous (declaredImports view)) :
    verifyManifest parseAll wasm = .ok () ↔ Exact wasm m := by
  by_cases hc : ∃ view, Carries wasm view
  · obtain ⟨view, h⟩ := hc
    obtain ⟨hexs, hims⟩ := hdeclared view h
    refine (h.verify_iff hread).mpr ⟨?_, ?_⟩
    · rintro ⟨-, -, -, hh | hh | hh | hh⟩
      · exact hexs.not_hides hh
      · exact hexports.not_hides hh
      · exact hims.not_hides hh
      · exact himports.not_hides hh
    · rintro ⟨hsame, hsame', hd | hd⟩
      · exact hd (hsame.sameLast hexs)
      · exact hd (hsame'.sameLast hims)
  · exact verify_of_not_carries hc hread

/-- **The check is exact** iff it neither overlooks an entry nor takes another order of the
entries of a name for other entries. -/
theorem verifyManifest_exact_iff (parseAll : Bytes → List (Except String Payload)) (wasm : Bytes)
    (m : Module) (hread : parseAll wasm = m.payloads) :
    (verifyManifest parseAll wasm = .ok () ↔ Exact wasm m) ↔
      ∀ view, Carries wasm view → ¬ Overlooks view m ∧ ¬ Reorders view m := by
  by_cases hc : ∃ view, Carries wasm view
  · obtain ⟨view, h⟩ := hc
    rw [h.verify_iff hread]
    constructor
    · intro hnot view' h'
      rwa [h.unique h']
    · exact fun hnot => hnot view h
  · exact iff_of_true (verify_of_not_carries hc hread) fun view h => absurd ⟨view, h⟩ hc

/-- A module that imports one name with two types, and declares the second. -/
def importsTwice : Module where
  sections := [.other, .types [[.func ⟨[.i32], []⟩], [.func ⟨[], []⟩]],
    .imports [⟨ascii "wari".toList, ascii "f".toList, .func 0⟩,
      ⟨ascii "wari".toList, ascii "f".toList, .func 1⟩], .other, .other]
  inOrder := by decide
  imports_lt := by decide

/-- The bytes of a module that imports one name twice: types, imports, and the manifest. -/
def importsTwiceWasm : Bytes :=
  [0x00, 0x61, 0x73, 0x6d, 0x01, 0x00, 0x00, 0x00] ++
  [0x01, 0x08, 0x02, 0x60, 0x01, 0x7f, 0x00, 0x60, 0x00, 0x00] ++
  ([0x02, 0x13, 0x02, 0x04] ++ ascii "wari".toList ++ [0x01] ++ ascii "f".toList ++ [0x00, 0x00,
    0x04] ++ ascii "wari".toList ++ [0x01] ++ ascii "f".toList ++ [0x00, 0x01]) ++
  ([0x00, 0x61, 0x14] ++ ascii "wari_driver_manifest".toList ++ ascii "WDM".toList ++
    [0x00, 0x02, 0x00, 0x04, 0x00, 0x00, 0x00, 0x01, 0x00, 0x00, 0x00, 0x00, 0x00] ++
    ascii "wari".toList ++ List.replicate 20 0x00 ++ ascii "f".toList ++ List.replicate 31 0x00 ++
    [0x01, 0x00, 0x00, 0x00])

theorem verifyManifest_exact_iff_importsTwice :
    (verifyManifest (fun _ => importsTwice.payloads) importsTwiceWasm = .ok () ↔
      Exact importsTwiceWasm importsTwice) ↔
      ∀ view, Carries importsTwiceWasm view →
        ¬ Overlooks view importsTwice ∧ ¬ Reorders view importsTwice :=
  verifyManifest_exact_iff (fun _ => importsTwice.payloads) importsTwiceWasm importsTwice rfl

theorem importsTwice_signed :
    verifyManifest (fun _ => importsTwice.payloads) importsTwiceWasm = .ok () := by
  decide +kernel

/-- The import of the first type, which the manifest does not declare. -/
def firstImport : (Bytes × Bytes) × Option FuncType :=
  ((ascii "wari".toList, ascii "f".toList), some ⟨[.i32], []⟩)

/-- The module is signed, with an import its manifest does not declare. -/
theorem import_overlooked :
    ¬ (verifyManifest (fun _ => importsTwice.payloads) importsTwiceWasm = .ok () ↔
      Exact importsTwiceWasm importsTwice) := by
  intro h
  obtain ⟨view, hview, -, hims⟩ := h.mp importsTwice_signed
  have hdeclared : firstImport ∈ declaredImports view := (hims firstImport).mpr (by decide +kernel)
  have hnot : (parseFromWasm importsTwiceWasm).toOption.any
      (fun view => firstImport ∈ declaredImports view) = false := by decide +kernel
  rw [hview.1, Except.toOption, Option.any_some, decide_eq_false_iff_not] at hnot
  exact hnot hdeclared

end Wari.Signing
