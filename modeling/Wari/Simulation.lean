import Wari.Lowering

/-!
# Structured control

From instructions to sequences: what follows runs after what came before, a block ends where
its exit begins, and a loop goes around as often in the function as in WebAssembly. The
function never stops where WebAssembly goes on, so both may also go on forever.
-/

namespace Wari.Aot

open Lib (Walk)
open Clif (Builder Block HostMem Function)
open Wasm (Code Context ValType endBlock goAround)

variable {base : BitVec 64} {len : ℕ} {before : HostMem} {f : Function}
  {t t₁ t₂ t' : Translator} {st : Wasm.State} {s s₁ : Clif.State} {r : Wasm.Result}
  {height fuel : ℕ}

/-! ## One after the other

Code after code: what the first leaves is what the second starts with. -/

/-- Only the names of values matter for data, so that the rest of the translator may change. -/
theorem Data.transport (h : Data base len before t st s) (hmemBase : t'.memBase = t.memBase)
    (hmemLen : t'.memLen = t.memLen) (hlocals : t'.locals = t.locals) :
    Data base len before t' st s :=
  ⟨hmemBase ▸ h.memBase, hmemLen ▸ h.memLen, hlocals ▸ h.locals, h.memory⟩

/-- **Some steps before**: more fuel may be gone, and the simulation holds from where they began.
-/
theorem Simulates.of_walk {n fuel' : ℕ} (h : Simulates base len before f t₁ t' height fuel s₁ r)
    (hwalk : Walk f.step n s s₁) (hgrows : t.Grows t₁) (hfuel : fuel' ≤ n + fuel) :
    Simulates base len before f t t' height fuel' s r := by
  cases r with
  | normal st' =>
    obtain ⟨hheight, m, s', hwalk', hrel⟩ := h
    exact ⟨hheight, n + m, s', hwalk.append hwalk', hrel⟩
  | branch l st' =>
    obtain ⟨m, s', frame, hm, hwalk', hframe, hblock, hindex, hdata⟩ := h
    refine ⟨n + m, s', frame, Nat.add_pos_right n hm, hwalk.append hwalk', ?_, hblock, hindex, ?_⟩
    · rw [← hgrows.control]
      exact hframe
    · exact hdata.transport hgrows.memBase.symm hgrows.memLen.symm hgrows.locals.symm
  | returned st' =>
    obtain ⟨v, vs, hst, hends⟩ := h
    exact ⟨v, vs, hst, hends.of_walk hwalk⟩
  | trapped trap memory => exact Ends.of_walk hwalk h
  | invalid => exact h
  | exhausted =>
    obtain ⟨m, s', hm, hwalk'⟩ := h
    exact ⟨n + m, s', hfuel.trans (Nat.add_le_add_left hm n), hwalk.append hwalk'⟩

/-- **Sequencing**: where two pieces of code are each simulated, so is one after the other. -/
theorem Simulates.andThen {height' : ℕ} {next : Wasm.State → Wasm.Result}
    (h : Simulates base len before f t t₁ height fuel s r) (hgrows : t.Grows t₁)
    (hnext : ∀ st₁ s₁, st₁.stack.length = height → Rel base len before t₁ st₁ s₁ →
      Simulates base len before f t₁ t' height' fuel s₁ (next st₁)) :
    Simulates base len before f t t' height' fuel s (r.andThen next) := by
  cases r with
  | normal st' =>
    obtain ⟨hheight, n, s', hwalk, hrel⟩ := h
    exact (hnext st' s' hheight hrel).of_walk hwalk hgrows (Nat.le_add_left _ _)
  | _ => exact h

/-! ## Frames

A block is left at its end or by a branch, and both lead to its exit with the results on the
stack. -/

/-- At the start of a block, with nothing on the stack. -/
theorem Data.enter (h : Data base len before t st s) (t' : Translator)
    (hmemBase : t'.memBase = t.memBase)
    (hmemLen : t'.memLen = t.memLen) (hlocals : t'.locals = t.locals)
    (hblock : s.block = t'.b.current) (hindex : s.index = 0)
    (hempty : t'.b.blocks t'.b.current = []) :
    Rel base len before t' { st with stack := [] } s := by
  refine ⟨⟨hblock, ?_⟩, ?_, .nil _⟩
  · rw [hempty]
    exact hindex
  · have hdata := h.transport hmemBase hmemLen hlocals
    exact ⟨hdata.memBase, hdata.memLen, hdata.locals, hdata.memory⟩

/-- **At the end** of a block or loop, the function jumps to the exit. -/
theorem Rel.leave {frame : Frame} {control : List Frame} (h : Rel base len before t₂ st s)
    (hstack : st.stack.length = 0) (hwithin : (t₂.leave frame control).b.Within f)
    (hempty : (t₂.leave frame control).b.blocks frame.exit = []) :
    ∃ s', Walk f.step 1 s s' ∧
      Rel base len before (t₂.leave frame control) { st with stack := st.stack ++ [] } s' := by
  have hstep := Clif.step_emit (i := .jump frame.exit) hwithin h.here
  have hdata : Data base len before t₂ st (s.goto frame.exit) :=
    ⟨h.data.memBase, h.data.memLen, h.data.locals, h.data.memory⟩
  refine ⟨s.goto frame.exit, .single hstep, ?_⟩
  rw [List.append_nil, List.eq_nil_of_length_eq_zero hstack]
  exact hdata.enter _ rfl rfl rfl rfl rfl hempty

/-- **Out of a block**: at its end, or by a branch to it. -/
theorem Simulates.leaveBlock (ht : t.b.Tidy) (hgrows : t.enterBlock.Grows t₂)
    (hwithin : (t₂.leave t.blockFrame t.control).b.Within f)
    (h : Simulates base len before f t.enterBlock t₂ 0 fuel s r) :
    Simulates base len before f t (t₂.leave t.blockFrame t.control) 0 fuel s
      (endBlock 0 [] r) := by
  obtain ⟨hleave, hempty⟩ := leave_block ht hgrows
  cases r with
  | normal st' =>
    obtain ⟨hheight, n, s', hwalk, hrel⟩ := h
    obtain ⟨s'', hjump, hrel'⟩ := hrel.leave hheight hwithin hempty
    refine ⟨?_, n + 1, s'', hwalk.append hjump, hrel'⟩
    rw [List.append_nil]
    exact hheight
  | branch l st' =>
    obtain ⟨n, s', frame, hn, hwalk, hframe, hblock, hindex, hdata⟩ := h
    cases l with
    | zero =>
      cases hframe
      refine ⟨rfl, n, s', hwalk, ?_⟩
      exact hdata.enter _ hleave.memBase hleave.memLen hleave.locals hblock hindex hempty
    | succ l =>
      exact ⟨n, s', frame, hn, hwalk, hframe, hblock, hindex, hdata.transport rfl rfl rfl⟩
  | _ => exact h

/-- Before a loop, the function jumps to its header. -/
theorem Rel.enterLoop (h : Rel base len before t st s) (hready : t.Ready)
    (hwithin : t.enterLoop.b.Within f) (hstack : st.stack = []) :
    ∃ s', Walk f.step 1 s s' ∧ Rel base len before t.enterLoop st s' := by
  have hat : s.At t.b.createBlock.2.createBlock.2 := ⟨h.here.block, h.here.index⟩
  have hstep := Clif.step_emit (i := .jump t.b.numBlocks) hwithin hat
  have hdata : Data base len before t st (s.goto t.b.numBlocks) :=
    ⟨h.data.memBase, h.data.memLen, h.data.locals, h.data.memory⟩
  refine ⟨s.goto t.b.numBlocks, .single hstep, ?_⟩
  have hrel := hdata.enter t.enterLoop rfl rfl rfl rfl rfl (blocks_enterLoop hready.tidy)
  rw [← hstack] at hrel
  exact hrel

/-- **A loop** goes around in both, as often as there is fuel: the induction is on the fuel. -/
theorem Simulates.goAround {run : Wasm.State → Wasm.Result} (ht : t.b.Tidy)
    (hgrows : t.enterLoop.Grows t₂) (hwithin : (t₂.leave t.loopFrame t.control).b.Within f)
    (hrun : ∀ st s, st.stack.length = 0 → Rel base len before t.enterLoop st s →
      Simulates base len before f t.enterLoop t₂ 0 fuel s (run st)) {k : ℕ} (hk : k ≤ fuel) :
    ∀ {st s}, st.stack.length = 0 → Rel base len before t.enterLoop st s →
      Simulates base len before f t (t₂.leave t.loopFrame t.control) 0 k s
        (goAround run 0 [] k st) := by
  obtain ⟨hleave, hempty⟩ := leave_loop ht hgrows
  induction k with
  | zero =>
    intro st s hheight hrel
    exact ⟨0, s, Nat.le_refl 0, .nil s⟩
  | succ k ih =>
    intro st s hheight hrel
    have hbody := hrun st s hheight hrel
    rw [Wasm.goAround]
    generalize run st = r at hbody ⊢
    cases r with
    | normal st' =>
      obtain ⟨hheight', n, s', hwalk, hrel'⟩ := hbody
      obtain ⟨s'', hjump, hrel''⟩ := hrel'.leave hheight' hwithin hempty
      refine ⟨?_, n + 1, s'', hwalk.append hjump, hrel''⟩
      rw [List.append_nil]
      exact hheight'
    | branch l st' =>
      obtain ⟨n, s', frame, hn, hwalk, hframe, hblock, hindex, hdata⟩ := hbody
      cases l with
      | zero =>
        cases hframe
        have hrel' := hdata.enter t.enterLoop rfl rfl rfl hblock hindex
          (blocks_enterLoop ht)
        exact (ih (Nat.le_of_succ_le hk) rfl hrel').of_walk hwalk (.refl ht) (by omega)
      | succ l =>
        exact ⟨n, s', frame, hn, hwalk, hframe, hblock, hindex, hdata.transport rfl rfl rfl⟩
    | exhausted =>
      obtain ⟨n, s', hn, hwalk⟩ := hbody
      exact ⟨n, s', hk.trans hn, hwalk⟩
    | _ => exact hbody

/-! ## Sequences

By induction on the sequence. Code after a branch is dead, and is translated to nothing. -/

/-- Where the translator has nothing on its stack, WebAssembly has not either. -/
theorem Rel.stack_eq_nil (h : Rel base len before t st s) (hstack : t.stack = []) :
    st.stack = [] := by
  have hstacked := h.stack
  rw [hstack] at hstacked
  generalize st.stack = vs at hstacked ⊢
  cases hstacked with
  | nil => rfl

theorem Translator.Ready.enterBlock (h : t.Ready) : t.enterBlock.Ready := by
  have hgrows := grows_enterBlock h.tidy
  exact ⟨hgrows.tidy, h.memBase.trans_le hgrows.numValues, h.memLen.trans_le hgrows.numValues,
    h.locals⟩

theorem Translator.Ready.enterLoop (h : t.Ready) : t.enterLoop.Ready := by
  have hgrows := grows_enterLoop h.tidy
  exact ⟨hgrows.tidy, h.memBase.trans_le hgrows.numValues, h.memLen.trans_le hgrows.numValues,
    h.locals⟩

/-- **Every sequence** does in the function what it does in WebAssembly. By induction on the
sequence; blocks and loops are entered with nothing on the stack. -/
theorem translateOps_simulates (fuel : ℕ) {c : Code} (hlen : len < 2 ^ 64) :
    ∀ {C : Context} {tys tys' : List ValType} {t t' : Translator} {st : Wasm.State}
      {s : Clif.State}, c.Typed C tys tys' → C.memories ≤ 1 → 0 < C.results.length →
      translateOps t c.operators = .ok t' → t'.b.Within f → t.Ready →
      Rel base len before t st s → st.stack.length = tys.length →
      Simulates base len before f t t' tys'.length fuel s (c.exec C.types fuel st) := by
  induction c with
  | nil =>
    intro C tys tys' t t' st s htyped _ _ hops _ _ hrel hheight
    cases htyped
    cases hops
    exact ⟨hheight, 0, s, .nil s, hrel⟩
  | instr i next ih =>
    intro C tys tys' t t' st s htyped hmemories hresults hops hwithin hready hrel hheight
    cases htyped with
    | instr rest hi hnext =>
      obtain ⟨t₁, hti, hops⟩ := translateOps_cons.mp hops
      have hgrows := translateInstr_grows hready.tidy hti
      have hrest := translateOps_grows hgrows.b.tidy hops
      have hinstr := translateInstr_simulates hrel (hrest.b.within hwithin) hready fuel
        hi hti hmemories hresults hheight hlen
      exact hinstr.andThen hgrows fun st₁ s₁ hheight₁ hrel₁ =>
        ih hnext hmemories hresults hops hwithin (hready.grows hgrows) hrel₁ hheight₁
  | block bt body next ihbody ihnext =>
    intro C tys tys' t t' st s htyped hmemories hresults hops hwithin hready hrel hheight
    have htidy := hready.tidy
    obtain ⟨rfl, hstack, t₂, hbody, hgrows, hops⟩ :=
      translateOps_block (fun t₂ => translateOps_grows (grows_enterBlock htidy).tidy) hops
    cases htyped with
    | block ty rest hty hbodyTyped hnext =>
      cases hty
      have hleave := (leave_block htidy hgrows).1
      have hrest := translateOps_grows hleave.b.tidy hops
      have hwithinLeave := hrest.b.within hwithin
      have hwithinBody := (Builder.grows_emit hgrows.b.tidy _).within hwithinLeave
      obtain ⟨locals, stack, memory⟩ := st
      obtain rfl : stack = [] := hrel.stack_eq_nil hstack
      obtain rfl := List.eq_nil_of_length_eq_zero hheight.symm
      have hin : Rel base len before t.enterBlock ⟨locals, [], memory⟩ s :=
        ⟨⟨hrel.here.block, hrel.here.index⟩, hrel.data.transport rfl rfl rfl, .nil _⟩
      have hsim :=
        ihbody hbodyTyped hmemories hresults hbody hwithinBody (hready.enterBlock) hin rfl
      have hblock := hsim.leaveBlock htidy hgrows hwithinLeave
      exact hblock.andThen hleave fun st₁ s₁ hheight₁ hrel₁ =>
        ihnext hnext hmemories hresults hops hwithin (hready.grows hleave) hrel₁ hheight₁
  | loop bt body next ihbody ihnext =>
    intro C tys tys' t t' st s htyped hmemories hresults hops hwithin hready hrel hheight
    have htidy := hready.tidy
    obtain ⟨rfl, hstack, t₂, hbody, hgrows, hops⟩ :=
      translateOps_loop (fun t₂ => translateOps_grows (grows_enterLoop htidy).tidy) hops
    cases htyped with
    | loop ty rest hty hbodyTyped hnext =>
      cases hty
      have hleave := (leave_loop htidy hgrows).1
      have hrest := translateOps_grows hleave.b.tidy hops
      have hwithinLeave := hrest.b.within hwithin
      have hwithinBody := (Builder.grows_emit hgrows.b.tidy _).within hwithinLeave
      obtain ⟨locals, stack, memory⟩ := st
      obtain rfl : stack = [] := hrel.stack_eq_nil hstack
      obtain rfl := List.eq_nil_of_length_eq_zero hheight.symm
      obtain ⟨s₀, hjump, hin⟩ := hrel.enterLoop hready (hgrows.b.within hwithinBody) rfl
      have hrun : ∀ st s, st.stack.length = 0 → Rel base len before t.enterLoop st s →
          Simulates base len before f t.enterLoop t₂ 0 fuel s (body.exec C.types fuel st) :=
        fun st s hheight' hrel' =>
          ihbody hbodyTyped hmemories hresults hbody hwithinBody hready.enterLoop hrel' hheight'
      have hloop := Simulates.goAround htidy hgrows hwithinLeave hrun (Nat.le_refl fuel) rfl hin
      have hsim := hloop.of_walk hjump (.refl htidy) (Nat.le_add_left _ _)
      exact hsim.andThen hleave fun st₁ s₁ hheight₁ hrel₁ =>
        ihnext hnext hmemories hresults hops hwithin (hready.grows hleave) hrel₁ hheight₁

end Wari.Aot
