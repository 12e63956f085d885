import Mathlib.Data.List.Nodup
import Wari.Simulation

/-!
# The translator preserves semantics

What `translate` makes of a valid module with one memory does what its `_start` does: it
returns the same word, or traps for the same reason, and leaves the same memory; and if
`_start` goes on forever, so does it.
-/

namespace Wari.Aot

open Lib (Walk bind_ok)
open Clif (Builder HostMem Function)
open Wasm (Code Func Module ValType)

variable {base : BitVec 64} {len : ℕ} {before : HostMem} {f : Function}
  {t t' : Translator} {s : Clif.State} {memory : List (BitVec 8)}

/-! ## Locals

Locals come first in a body, and are zero. Each becomes a variable. -/

/-- Locals as declared so far: zero, and each with a variable of its own. -/
structure Declaring (t : Translator) : Prop where
  ready : t.Ready
  stack : t.stack = []
  control : t.control = []
  vars : ∀ var ∈ t.locals, var < t.b.numVars

/-- At the start the locals are zero, and the stack is empty. -/
def zeros (count : ℕ) (memory : List (BitVec 8)) : Wasm.State :=
  ⟨List.replicate count 0#32, [], memory⟩

theorem declareLocal_grows (ht : t.b.Tidy) : t.b.Grows (declareLocal t).b := by
  have hvar : t.b.Grows t.b.declareVar.2 :=
    ⟨ht, Nat.le_refl _, Nat.le_refl _, List.prefix_rfl, fun _ _ _ => rfl, .inl rfl, ht.1, ht.2⟩
  have hzero := hvar.trans (Builder.grows_ins hvar.tidy (.iconst 0))
  exact hzero.trans (Builder.grows_emit hzero.tidy _)

theorem Declaring.declareLocal (h : Declaring t) : Declaring (declareLocal t) := by
  have hgrows := declareLocal_grows h.ready.tidy
  refine ⟨⟨hgrows.tidy, h.ready.memBase.trans_le hgrows.numValues,
    h.ready.memLen.trans_le hgrows.numValues, ?_⟩, h.stack, h.control, fun var hvar => ?_⟩
  · refine List.nodup_append.mpr ⟨h.ready.locals, List.nodup_singleton _, fun x hx y hy => ?_⟩
    rw [List.mem_singleton.mp hy]
    exact (h.vars x hx).ne
  · change var < t.b.numVars + 1
    rcases List.mem_append.mp hvar with hold | hnew
    · exact Nat.lt_succ_of_lt (h.vars var hold)
    · rw [List.mem_singleton.mp hnew]
      exact Nat.lt_succ_self _

/-- **A local is declared**: its variable is zero, as the local is at the start of a call. -/
theorem rel_declareLocal (h : Rel base len before t (zeros t.locals.length memory) s)
    (hdecl : Declaring t) (hwithin : (declareLocal t).b.Within f) :
    ∃ n s', Walk f.step n s s' ∧ Rel base len before (declareLocal t)
      (zeros (declareLocal t).locals.length memory) s' := by
  have hready := hdecl.ready
  let t₀ : Translator := { t with b := t.b.declareVar.2 }
  have hready₀ : t₀.Ready :=
    ⟨⟨hready.tidy.current, hready.tidy.unused⟩, hready.memBase, hready.memLen, hready.locals⟩
  have hrel₀ : Rel base len before t₀ (zeros t.locals.length memory) s :=
    ⟨⟨h.here.block, h.here.index⟩, h.data.transport rfl rfl rfl, .nil _⟩
  have hzero := Builder.grows_ins hready₀.tidy (.iconst 0)
  have hwithin₁ : (t₀.b.ins (.iconst 0)).2.Within f :=
    (Builder.grows_emit hzero.tidy (.defVar t.b.numVars t.b.numValues)).within hwithin
  obtain ⟨s₁, hwalk, hrel, hval, -⟩ := hrel₀.ins hready₀ rfl hwithin₁ (v := .i32 0#32) rfl
  have hstep := Clif.step_emit (i := .defVar t.b.numVars t.b.numValues) hwithin hrel.here
  have hval' : s₁.env t.b.numValues = some (.i32 0#32) := hval
  simp only [Clif.Inst.exec, hval'] at hstep
  refine ⟨2, _, hwalk.snoc hstep, Clif.at_emit hrel.here rfl rfl,
    ⟨hrel.data.memBase, hrel.data.memLen, fun x var hvar => ?_, hrel.data.memory⟩, .nil _⟩
  have hx := (List.getElem?_eq_some_iff.mp hvar).1
  refine ⟨0#32, List.getElem?_replicate_of_lt hx, ?_⟩
  change Function.update s₁.vars t.b.numVars (some (.i32 0#32)) var = some (.i32 0#32)
  have hvar' : (t.locals ++ [t.b.numVars])[x]? = some var := hvar
  rcases Nat.lt_or_ge x t.locals.length with hlt | hge
  · rw [List.getElem?_append_left hlt] at hvar'
    obtain ⟨v, hv, hvars⟩ := hrel.data.locals x var hvar'
    rw [zeros, List.getElem?_replicate_of_lt hlt] at hv
    cases hv
    rw [Function.update_of_ne (hdecl.vars var (List.mem_of_getElem? hvar')).ne]
    exact hvars
  · rw [List.getElem?_append_right hge] at hvar'
    rw [List.mem_singleton.mp (List.mem_of_getElem? hvar'), Function.update_self]

variable (base len before f memory)

/-- From one translator to another, so many locals are declared. -/
structure Declares (count : ℕ) (t t' : Translator) : Prop where
  grows : t.b.Grows t'.b
  declaring : Declaring t'
  length : t'.locals.length = t.locals.length + count
  runs : ∀ s, t'.b.Within f → Rel base len before t (zeros t.locals.length memory) s →
    ∃ n s', Walk f.step n s s' ∧ Rel base len before t' (zeros t'.locals.length memory) s'

variable {base len before f memory}

theorem Declares.refl (h : Declaring t) : Declares base len before f memory 0 t t :=
  ⟨.refl h.ready.tidy, h, rfl, fun s _ hrel => ⟨0, s, .nil s, hrel⟩⟩

theorem Declares.trans {t₁ : Translator} {n m : ℕ} (h₁ : Declares base len before f memory n t t₁)
    (h₂ : Declares base len before f memory m t₁ t') :
    Declares base len before f memory (n + m) t t' := by
  refine ⟨h₁.grows.trans h₂.grows, h₂.declaring, ?_, fun s hwithin hrel => ?_⟩
  · rw [h₂.length, h₁.length, Nat.add_assoc]
  · obtain ⟨k₁, s₁, hwalk₁, hrel₁⟩ := h₁.runs s (h₂.grows.within hwithin) hrel
    obtain ⟨k₂, s₂, hwalk₂, hrel₂⟩ := h₂.runs s₁ hwithin hrel₁
    exact ⟨_, s₂, hwalk₁.append hwalk₂, hrel₂⟩

theorem declares_declareLocal (h : Declaring t) :
    Declares base len before f memory 1 t (declareLocal t) :=
  ⟨declareLocal_grows h.ready.tidy, h.declareLocal, List.length_append,
    fun _ hwithin hrel => rel_declareLocal hrel h hwithin⟩

theorem declares_iterate (h : Declaring t) (count : ℕ) :
    Declares base len before f memory count t (declareLocal^[count] t) := by
  induction count with
  | zero => exact .refl h
  | succ count ih =>
    rw [Function.iterate_succ_apply']
    exact ih.trans (declares_declareLocal ih.declaring)

/-- **All locals** are declared, and of type `i32`, or the translation is refused. -/
theorem declareLocals_declares {decls : List (ℕ × ValType)} :
    ∀ {t t' : Translator}, Declaring t → declareLocals t decls = .ok t' →
      Declares base len before f memory
        (decls.flatMap fun decl => List.replicate decl.1 decl.2).length t t' := by
  induction decls with
  | nil =>
    intro t t' hdecl h
    cases h
    exact .refl hdecl
  | cons decl decls ih =>
    intro t t' hdecl h
    obtain ⟨count, ty⟩ := decl
    rw [declareLocals] at h
    split at h
    · cases h
    · have hcount : Declares base len before f memory count t (declareLocal^[count] t) :=
        declares_iterate hdecl count
      have htotal := hcount.trans (ih hcount.declaring h)
      rw [List.flatMap_cons, List.length_append, List.length_replicate]
      exact htotal

/-- Before the first local is declared, the stack and the frames are empty. -/
theorem declaring_entry : Declaring entryTranslator :=
  ⟨⟨⟨Nat.one_pos, fun _ _ => rfl⟩, Nat.two_pos, Nat.one_lt_two, .nil⟩, rfl, rfl, nofun⟩

theorem rel_entry (hmapped : Mapped base len before memory before) (hf : f.entry = 0) :
    Rel base len before entryTranslator (zeros 0 memory)
      (f.start base (BitVec.ofNat 64 len) before) := by
  refine ⟨⟨hf, rfl⟩, ⟨?_, ?_, nofun, hmapped⟩, .nil _⟩
  · rfl
  · rfl

/-! ## Finding `_start`

The translator looks for the export by name among bodies in the order of the code section, and
imported functions come before these. -/

theorem startFunc_ok {exports : List Wasm.Export} {idx : ℕ} :
    ∀ {found : Option ℕ}, startFunc found exports = .ok (some idx) →
      found = some idx ∨
        ∃ e ∈ exports, e.name = "_start" ∧ e.kind = .func ∧ e.index = idx := by
  induction exports with
  | nil =>
    intro found h
    cases h
    exact .inl rfl
  | cons e exports ih =>
    intro found h
    rw [startFunc] at h
    by_cases hname : e.name = "_start"
    · rw [if_pos hname] at h
      by_cases hkind : e.kind = .func
      · rw [if_neg (not_not.mpr hkind)] at h
        rcases ih h with hidx | ⟨e', he', hrest⟩
        · cases hidx
          exact .inr ⟨e, List.mem_cons_self, hname, hkind, rfl⟩
        · exact .inr ⟨e', List.mem_cons_of_mem _ he', hrest⟩
      · rw [if_pos hkind] at h
        cases h
    · rw [if_neg hname] at h
      rcases ih h with hidx | ⟨e', he', hrest⟩
      · exact .inl hidx
      · exact .inr ⟨e', List.mem_cons_of_mem _ he', hrest⟩

/-- A name is exported once, so that looking for it finds that export. -/
theorem find?_export {exports : List Wasm.Export} (hnames : (exports.map Wasm.Export.name).Nodup)
    {e : Wasm.Export} (he : e ∈ exports) (hkind : e.kind = .func) :
    exports.find? (fun e' => e'.name == e.name && e'.kind == .func) = some e := by
  have hsome : (exports.find? fun e' => e'.name == e.name && e'.kind == .func).isSome = true :=
    List.find?_isSome.mpr ⟨e, he, by rw [hkind, beq_self_eq_true]; rfl⟩
  obtain ⟨e', he'⟩ := Option.isSome_iff_exists.mp hsome
  have hmatch := List.find?_some he'
  have hname : e'.name = e.name := beq_iff_eq.mp (Bool.and_eq_true_iff.mp hmatch).1
  rw [List.inj_on_of_nodup_map hnames he (List.mem_of_find?_eq_some he') hname.symm]
  rwa [hname]

/-- **The body that is found** is that of the function exported as `_start`. -/
theorem exported_of_findStartBody {m : Module} {f₀ : Func} (hvalid : m.Valid)
    (h : findStartBody m = .ok f₀) : m.exported? "_start" = some f₀ := by
  rw [findStartBody] at h
  split at h
  · cases h
  · cases h
  · rename_i idx hidx
    obtain hnone | ⟨e, he, hname, hkind, rfl⟩ := startFunc_ok hidx
    · cases hnone
    · have hfind := find?_export hvalid.names he hkind
      rw [hname] at hfind
      rw [Module.exported?, hfind]
      dsimp only at h ⊢
      split at h
      · cases h
      · rename_i himported
        rw [if_neg himported]
        rcases hbody : m.funcs[e.index - m.importedFuncs]? with _ | f₁
        · rw [hbody] at h
          cases h
        · rw [hbody] at h
          cases h
          rfl

/-! ## The whole function

The simulation of instructions, from the entry to the last `end`. Both directions are needed: the
function ends as WebAssembly does, and not otherwise. -/

/-- An outcome of the source, as the outcome that the translation has. -/
def lower : Wasm.Outcome → Clif.Outcome
  | .value v => .returned v
  | .trap trap => .trapped (trapCode trap)

/-- **The end of the function** returns what is on top, which corresponds on both sides. -/
theorem Simulates.returns {t₁ : Translator} {fuel : ℕ} {r : Wasm.Result} {message : String}
    {p : Clif.Value × List Clif.Value} (h : Simulates base len before f t t₁ 1 fuel s r)
    (hcontrol : t.control = []) (hpop : pop t₁.stack message = .ok p)
    (hwithin : (t₁.b.emit (.return_ p.1)).Within f) :
    (∃ o memory', r.outcome? = some (o, memory') ∧ Ends base len before f s (lower o) memory') ∨
      r.outcome? = none ∧ ∃ n s', fuel ≤ n ∧ Walk f.step n s s' := by
  cases r with
  | normal st' =>
    obtain ⟨hheight, n, s', hwalk, hrel⟩ := h
    obtain ⟨v, vs, hst, -, -, hv⟩ := hrel.popTop hpop hheight
    have hstep := Clif.step_emit (i := .return_ p.1) hwithin hrel.here
    simp only [Clif.Inst.exec, hv] at hstep
    refine .inl ⟨.value v, st'.memory, ?_, n, s', s'.mem, hwalk, hstep, hrel.data.memory⟩
    rw [Wasm.Result.outcome?, hst]
  | branch l st' =>
    obtain ⟨n, s', frame, -, -, hframe, -⟩ := h
    rw [hcontrol] at hframe
    cases hframe
  | returned st' =>
    obtain ⟨v, vs, hst, hends⟩ := h
    refine .inl ⟨.value v, st'.memory, ?_, hends⟩
    rw [Wasm.Result.outcome?, hst]
  | trapped trap memory' => exact .inl ⟨.trap trap, memory', rfl, h⟩
  | invalid => exact h.elim
  | exhausted => exact .inr ⟨rfl, h⟩

/-- The last `end` returns the top of the stack. -/
theorem translateOp_return (hcontrol : t.control = []) (h : translateOp t .end_ = .ok t') :
    ∃ message p, pop t.stack message = .ok p ∧ t'.b = t.b.emit (.return_ p.1) := by
  rw [translateOp, hcontrol] at h
  obtain ⟨p, hpop, h⟩ := bind_ok h
  cases h
  exact ⟨_, p, hpop, rfl⟩

/-- The stages of a translation that succeeds, with the states between them named. -/
theorem translate_ok {m : Module} (h : translate m = .ok f) :
    ∃ f₀ t t₂ t₃, findStartBody m = .ok f₀ ∧ declareLocals entryTranslator f₀.locals = .ok t ∧
      translateOps t f₀.body.operators = .ok t₂ ∧ translateOp t₂ .end_ = .ok t₃ ∧
      f = ⟨0, t₃.b.blocks⟩ := by
  obtain ⟨f₀, hbody, h⟩ := bind_ok h
  obtain ⟨t, hlocals, h⟩ := bind_ok h
  obtain ⟨t₃, hops, h⟩ := bind_ok h
  cases h
  obtain ⟨t₂, hops, hend⟩ := translateOps_append.mp hops
  obtain ⟨t₄, hend, hlast⟩ := translateOps_cons.mp hend
  cases hlast
  exact ⟨f₀, t, t₂, t₃, hbody, hlocals, hops, hend, rfl⟩

/-- A function that is found is one of the module's. -/
theorem mem_of_exported? {m : Module} {f₀ : Func} {name : String}
    (h : m.exported? name = some f₀) : f₀ ∈ m.funcs := by
  rw [Module.exported?] at h
  split at h
  · cases h
  · split at h
    · cases h
    · exact List.mem_of_getElem? h

section Whole

variable {m : Module} {f₀ : Func} (hvalid : m.Valid) (hmemories : m.memories ≤ 1)
  (hstart : m.exported? "_start" = some f₀) (htype : f₀.type = ⟨[], [.i32]⟩)
  (htranslate : translate m = .ok f) (hlen : len < 2 ^ 64)
  (hmapped : Mapped base len before memory before)

include hvalid hmemories hstart htype htranslate hlen hmapped

/-- **Every run** of the function goes along with one in WebAssembly: it ends alike, or it goes
on for at least as many steps as there was fuel. -/
theorem translate_runs (fuel : ℕ) :
    (∃ o memory', (f₀.body.exec m.types fuel (f₀.start memory)).outcome? = some (o, memory') ∧
      Ends base len before f (f.start base (BitVec.ofNat 64 len) before) (lower o) memory') ∨
    (f₀.body.exec m.types fuel (f₀.start memory)).outcome? = none ∧
      ∃ n s', fuel ≤ n ∧ Walk f.step n (f.start base (BitVec.ofNat 64 len) before) s' := by
  obtain ⟨f₁, t, t₂, t₃, hbody, hlocals, hops, hend, hf⟩ := translate_ok htranslate
  obtain rfl : f₀ = f₁ :=
    Option.some.inj (hstart.symm.trans (exported_of_findStartBody hvalid hbody))
  have hdecl : Declares base len before f memory _ entryTranslator t :=
    declareLocals_declares declaring_entry hlocals
  have hready := hdecl.declaring.ready
  have hgrows := translateOps_grows hready.tidy hops
  obtain ⟨message, p, hpop, hreturn⟩ :=
    translateOp_return (hgrows.control.trans hdecl.declaring.control) hend
  have hwithin : (t₂.b.emit (.return_ p.1)).Within f := by
    rw [hf, ← hreturn]
    exact fun _ => List.prefix_rfl
  have hwithin₂ := (Builder.grows_emit hgrows.b.tidy _).within hwithin
  obtain ⟨k, s₁, hwalk, hrel⟩ :=
    hdecl.runs _ (hgrows.b.within hwithin₂) (rel_entry hmapped (congrArg Function.entry hf))
  have hzeros : f₀.start memory = zeros t.locals.length memory := by
    have hlength : f₀.localTypes.length = t.locals.length := by
      rw [hdecl.length, Func.localTypes, htype]
      exact (Nat.zero_add _).symm
    rw [Func.start, hlength, zeros]
  have htyped := hvalid.funcs f₀ (mem_of_exported? hstart)
  rw [Func.Valid, htype] at htyped
  have hsim := translateOps_simulates fuel hlen htyped hmemories Nat.one_pos hops
    hwithin₂ hready hrel rfl
  rw [hzeros]
  exact (hsim.of_walk hwalk (.refl hready.tidy) (Nat.le_add_left _ _)).returns
    hdecl.declaring.control hpop hwithin

/-- What WebAssembly yields, the function yields: the simulation, from the first instruction to
the return. -/
theorem yields_of_wasm {o : Wasm.Outcome} {memory' : List (BitVec 8)}
    (h : m.Yields "_start" memory o memory') :
    ∃ mem', f.Yields base (BitVec.ofNat 64 len) before (lower o) mem' ∧
      Mapped base len before memory' mem' := by
  obtain ⟨f₁, fuel, hf₁, hyields⟩ := h
  obtain rfl : f₀ = f₁ := Option.some.inj (hstart.symm.trans hf₁)
  obtain ⟨o₁, memory₁, ho₁, n, s', mem', hwalk, hstep, hmem⟩ | ⟨hnone, -⟩ :=
    translate_runs hvalid hmemories hstart htype htranslate hlen hmapped fuel
  · rw [hyields] at ho₁
    cases ho₁
    exact ⟨mem', ⟨n + 1, hwalk.runFor_eq hstep⟩, hmem⟩
  · rw [hyields] at hnone
    cases hnone

/-- **What the function yields** is what WebAssembly yields: with as much fuel as the function
takes steps, WebAssembly has ended too. -/
theorem wasm_of_yields {o' : Clif.Outcome} {mem' : HostMem}
    (h : f.Yields base (BitVec.ofNat 64 len) before o' mem') :
    ∃ o memory', m.Yields "_start" memory o memory' ∧ o' = lower o ∧
      Mapped base len before memory' mem' := by
  obtain ⟨fuel, hrun⟩ := h
  obtain ⟨o, memory', ho, n, s', mem'', hwalk, hstep, hmem⟩ | ⟨-, n, s', hn, hwalk⟩ :=
    translate_runs hvalid hmemories hstart htype htranslate hlen hmapped fuel
  · have hsame := Lib.runFor_unique hrun (hwalk.runFor_eq hstep)
    cases hsame
    exact ⟨o, memory', ⟨f₀, fuel, hstart, ho⟩, rfl, hmem⟩
  · exact absurd (hwalk.lt_of_runFor hrun) (Nat.not_lt.mpr hn)

end Whole

/-- **The translator preserves semantics**: for a valid module with one memory, whatever that
memory holds and wherever the host has it, the function has the outcome of `_start` and leaves
its memory, and has no other. -/
theorem translate_preserves {m : Module} {f₀ : Func} (hvalid : m.Valid)
    (hmemories : m.memories ≤ 1) (hstart : m.exported? "_start" = some f₀)
    (htype : f₀.type = ⟨[], [.i32]⟩) (htranslate : translate m = .ok f)
    (hlen : memory.length < 2 ^ 64)
    (hmapped : Mapped base memory.length before memory before) :
    (∀ o memory', m.Yields "_start" memory o memory' →
      ∃ mem', f.Yields base (BitVec.ofNat 64 memory.length) before (lower o) mem' ∧
        Mapped base memory.length before memory' mem') ∧
    ∀ o' mem', f.Yields base (BitVec.ofNat 64 memory.length) before o' mem' →
      ∃ o memory', m.Yields "_start" memory o memory' ∧ o' = lower o ∧
        Mapped base memory.length before memory' mem' :=
  ⟨fun _ _ => yields_of_wasm hvalid hmemories hstart htype htranslate hlen hmapped,
    fun _ _ => wasm_of_yields hvalid hmemories hstart htype htranslate hlen hmapped⟩

/-- Counts down from 3, writes 7 to the memory, and reads it back. -/
def countdown : Module where
  types := [⟨[], [.i32]⟩]
  imports := []
  funcs := [{
    type := ⟨[], [.i32]⟩
    locals := [(1, .i32)]
    body := .instr (.i32Const 3) <| .instr (.localSet 0) <|
      .loop .empty
        (.instr (.localGet 0) <| .instr (.i32Const 1) <| .instr (.i32Bin .sub) <|
          .instr (.localTee 0) <| .instr (.brIf 0) .nil) <|
      .instr (.localGet 0) <| .instr (.i32Const 7) <| .instr (.i32Store ⟨2, 0, 0⟩) <|
      .instr (.localGet 0) <| .instr (.i32Load ⟨2, 0, 0⟩) .nil }]
  exports := [⟨"_start", .func, 0⟩]
  memories := 1

theorem countdown_valid : countdown.Valid := by
  refine ⟨fun f hf => ?_, ?_, ?_⟩
  · obtain rfl := List.mem_singleton.mp hf
    refine .instr [] (.i32Const 3) (.instr [] (.localSet rfl) ?_)
    refine .loop ⟨[], []⟩ [] rfl ?_ ?_
    · refine .instr [] (.localGet rfl) (.instr [.i32] (.i32Const 1) ?_)
      refine .instr [] (.i32Bin .sub) (.instr [] (.localTee rfl) ?_)
      exact .instr [] (.brIf rfl) (.nil _ _)
    · refine .instr [] (.localGet rfl) (.instr [.i32] (.i32Const 7) ?_)
      refine .instr [] (.i32Store (by decide) (by decide) (by decide)) ?_
      refine .instr [] (.localGet rfl) ?_
      exact .instr [] (.i32Load (by decide) (by decide) (by decide)) (.nil _ _)
  · exact List.pairwise_singleton _ _
  · intro e he hkind
    obtain rfl := List.mem_singleton.mp he
    decide

theorem translate_preserves_countdown :
    ∃ f mem', translate countdown = .ok f ∧
      f.Yields 0x1000 4 (fun _ => 0) (.returned 7) mem' ∧
      Mapped 0x1000 4 (fun _ => 0) [7, 0, 0, 0] mem' := by
  have hyields : countdown.Yields "_start" (List.replicate 4 0#8) (.value 7) [7, 0, 0, 0] :=
    ⟨_, 4, rfl, by rfl⟩
  have hmapped : Mapped 0x1000 4 (fun _ => 0) (List.replicate 4 0#8) (fun _ => 0) := by
    refine ⟨rfl, fun i v hi => ?_, fun _ _ => rfl⟩
    exact (List.eq_of_mem_replicate (List.mem_of_getElem? hi)).symm
  obtain ⟨f, hf⟩ : ∃ f, translate countdown = .ok f := ⟨_, rfl⟩
  obtain ⟨mem', hrun, hmem⟩ := (translate_preserves countdown_valid (Nat.le_refl 1) rfl rfl hf
    (by decide) hmapped).1 _ _ hyields
  exact ⟨f, mem', hf, hrun, hmem⟩

end Wari.Aot
