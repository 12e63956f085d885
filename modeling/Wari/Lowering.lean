import Wari.Layout

/-!
# Instruction by instruction

Where a function is in WebAssembly, and where its translation is: in the block that was being
filled, as far as it had been filled. Values on the stack, locals and memory correspond, and
every instruction keeps it so, or branches, returns or traps in both.
-/

namespace Wari

open Lib (Walk bind_ok readAt writeAt toLe ofLe)

namespace Clif

/-! ## Running what was emitted

The builder is where the function will be when it has run what was emitted so far. Instructions
that come later cannot move it. -/

/-- The function is where the builder goes on. -/
structure State.At (s : State) (b : Builder) : Prop where
  block : s.block = b.current
  index : s.index = (b.blocks b.current).length

section Emitted

variable {b : Builder} {f : Function} {s : State} {i : Inst} {d : Def} {v : Val}

/-- What was emitted stays where it is in the finished function. -/
theorem getElem?_of_within (h : (b.emit i).Within f) :
    (f.blocks b.current)[(b.blocks b.current).length]? = some i := by
  have hstart := h b.current
  rw [Builder.blocks_emit_current] at hstart
  obtain ⟨rest, hrest⟩ := hstart
  rw [← hrest, List.append_assoc, List.getElem?_append_right (Nat.le_refl _), Nat.sub_self]
  rfl

/-- **What was emitted is what runs**: where the state is at the end of what was built, the next
step executes the next instruction. -/
theorem step_emit (hwithin : (b.emit i).Within f) (hat : s.At b) : f.step s = i.exec s := by
  have hi : (f.blocks s.block)[s.index]? = some i := by
    rw [hat.block, hat.index]
    exact getElem?_of_within hwithin
  rw [Function.step, hi]

/-- After an instruction that stays in its block. -/
theorem at_emit {s' : State} (hat : s.At b) (hblock : s'.block = s.block)
    (hindex : s'.index = s.index + 1) : s'.At (b.emit i) := by
  refine ⟨hblock.trans hat.block, ?_⟩
  change s'.index = ((b.emit i).blocks b.current).length
  rw [Builder.blocks_emit_current, List.length_append, hindex, hat.index]
  rfl

theorem step_ins (hwithin : (b.ins d).2.Within f) (hat : s.At b) (hv : d.eval s = some v) :
    f.step s = .inl (s.define b.numValues v) := by
  rw [step_emit (i := .define b.numValues d) hwithin hat, Inst.exec, hv]

theorem at_ins (hat : s.At b) : (s.define b.numValues v).At (b.ins d).2 := by
  have hemit : (s.define b.numValues v).At (b.emit (.define b.numValues d)) :=
    at_emit hat rfl rfl
  exact ⟨hemit.block, hemit.index⟩

/-- In a block that is empty yet, the end of what was built is its first place. -/
theorem at_switchToBlock {blk : Block} (h : b.blocks blk = []) :
    (s.goto blk).At (b.switchToBlock blk) :=
  ⟨rfl, by change 0 = (b.blocks blk).length; rw [h]; rfl⟩

end Emitted

@[simp] theorem State.env_define_self (s : State) (dst : Value) (v : Val) :
    (s.define dst v).env dst = some v :=
  Function.update_self _ _ _

theorem State.env_define_of_lt (s : State) {x dst : Value} (h : x < dst) (v : Val) :
    (s.define dst v).env x = s.env x :=
  Function.update_of_ne (Nat.ne_of_lt h) _ _

end Clif

namespace Aot

open Clif (Builder Value Block HostMem Val Function)
open Wasm (Instr Code ValType)

/-! ## Memory

The linear memory is a part of the host's memory, at a base that the call passes in. Accesses of
four bytes within it stay within it. -/

/-- The host has the linear memory at `base`, and elsewhere what it had before. -/
structure Mapped (base : BitVec 64) (len : ℕ) (before : HostMem) (memory : List (BitVec 8))
    (mem : HostMem) : Prop where
  length : memory.length = len
  holds : ∀ i v, memory[i]? = some v → mem (base + BitVec.ofNat 64 i) = v
  elsewhere : ∀ a, (∀ i < len, a ≠ base + BitVec.ofNat 64 i) → mem a = before a

section Memory

variable {base : BitVec 64} {len : ℕ} {before : HostMem} {memory memory' : List (BitVec 8)}
  {mem : HostMem}

/-- **A load** in bounds reads the same bytes, from the linear memory there and from the host
here. -/
theorem Mapped.load (h : Mapped base len before memory mem) {ea : ℕ} {bs : List (BitVec 8)}
    (hread : readAt memory ea 4 = some bs) :
    mem.load (base + BitVec.ofNat 64 ea) = BitVec.ofNat 32 (ofLe bs) := by
  rw [readAt] at hread
  split at hread
  · rename_i hle
    cases hread
    rw [HostMem.load]
    congr 2
    refine List.ext_getElem ?_ fun j hj hj' => ?_
    · rw [List.length_map, List.length_range, List.length_take, List.length_drop]
      omega
    · have hj4 : j < 4 := by simpa using hj
      rw [List.getElem_map, List.getElem_range, List.getElem_take, List.getElem_drop,
        BitVec.add_assoc, ← BitVec.ofNat_add]
      exact h.holds _ _ (List.getElem?_eq_getElem (by omega))
  · cases hread

/-- How far an address of the memory is from that of an access. -/
theorem toNat_sub_base (base : BitVec 64) (hlen : len < 2 ^ 64) {i ea : ℕ} (hi : i < len)
    (hea : ea < len) :
    (base + BitVec.ofNat 64 i - (base + BitVec.ofNat 64 ea)).toNat =
      if ea ≤ i then i - ea else 2 ^ 64 - (ea - i) := by
  have hsub : base + BitVec.ofNat 64 i - (base + BitVec.ofNat 64 ea) =
      BitVec.ofNat 64 i - BitVec.ofNat 64 ea := by
    bv_omega
  have hi' : i % 2 ^ 64 = i := Nat.mod_eq_of_lt (hi.trans hlen)
  have hea' : ea % 2 ^ 64 = ea := Nat.mod_eq_of_lt (hea.trans hlen)
  rw [hsub, BitVec.toNat_sub, BitVec.toNat_ofNat, BitVec.toNat_ofNat, hi', hea']
  split
  · have hsum : 2 ^ 64 - ea + i = i - ea + 2 ^ 64 := by omega
    rw [hsum, Nat.add_mod_right, Nat.mod_eq_of_lt (by omega)]
  · have hsum : 2 ^ 64 - ea + i = 2 ^ 64 - (ea - i) := by omega
    rw [hsum, Nat.mod_eq_of_lt (by omega)]

/-- **A store** in bounds writes the same bytes, and leaves the host's memory outside as it was.
-/
theorem Mapped.store (h : Mapped base len before memory mem) (hlen : len < 2 ^ 64) {ea : ℕ}
    {v : BitVec 32} (hwrite : writeAt memory ea (toLe 4 v.toNat) = some memory') :
    Mapped base len before memory' (mem.store (base + BitVec.ofNat 64 ea) v) := by
  have hlength := Lib.length_writeAt hwrite
  have hea : ea + 4 ≤ len := by
    have hsome : (writeAt memory ea (toLe 4 v.toNat)).isSome = true := by rw [hwrite]; rfl
    have hle := Lib.writeAt_isSome.mp hsome
    rwa [Lib.length_toLe, h.length] at hle
  have hget := fun j => Lib.getElem?_writeAt hwrite j
  refine ⟨hlength.trans h.length, fun i w hi => ?_, fun a ha => ?_⟩
  · have hilen : i < len := by
      rw [← h.length, ← hlength]
      exact (List.getElem?_eq_some_iff.mp hi).1
    rw [hget, Lib.length_toLe] at hi
    rw [HostMem.store]
    have hdist := toNat_sub_base base hlen hilen (by omega : ea < len)
    by_cases hin : ea ≤ i ∧ i < ea + 4
    · rw [if_pos hin.1] at hdist
      rw [if_pos hin] at hi
      rw [hdist, if_pos (by omega), List.getD_eq_getElem?_getD, hi]
      rfl
    · rw [if_neg hin] at hi
      rw [if_neg, h.holds i w hi]
      rw [hdist]
      split <;> omega
  · rw [HostMem.store, if_neg]
    · exact h.elsewhere a ha
    · intro hlt
      refine ha (ea + (a - (base + BitVec.ofNat 64 ea)).toNat) (by omega) ?_
      rw [BitVec.ofNat_add, BitVec.ofNat_toNat, BitVec.setWidth_eq]
      bv_omega

end Memory

/-! ## What corresponds

Values of the stack are in values of the function, in order; locals are in variables; memory is in
place. -/

/-- The values of a stack, below a bound; there may be more values further down. -/
inductive Stacked (bound : ℕ) (env : Value → Option Val) : List Value → List (BitVec 32) → Prop
    where
  | nil (junk : List Value) : Stacked bound env junk []
  | cons {x : Value} {v : BitVec 32} {xs : List Value} {vs : List (BitVec 32)} (hx : x < bound)
      (hv : env x = some (.i32 v)) (h : Stacked bound env xs vs) :
      Stacked bound env (x :: xs) (v :: vs)

theorem Stacked.mono {n n' : ℕ} {env env' : Value → Option Val} {xs : List Value}
    {vs : List (BitVec 32)} (h : Stacked n env xs vs) (hle : n ≤ n')
    (henv : ∀ x < n, env' x = env x) : Stacked n' env' xs vs := by
  induction h with
  | nil junk => exact .nil junk
  | cons hx hv _ ih => exact .cons (hx.trans_le hle) ((henv _ hx).trans hv) ih

/-- What is fixed while a function is translated. -/
structure Translator.Ready (t : Translator) : Prop where
  tidy : t.b.Tidy
  memBase : t.memBase < t.b.numValues
  memLen : t.memLen < t.b.numValues
  locals : t.locals.Nodup

theorem Translator.Ready.grows {t t' : Translator} (h : t.Ready) (hgrows : t.Grows t') :
    t'.Ready := by
  refine ⟨hgrows.b.tidy, ?_, ?_, ?_⟩
  · rw [hgrows.memBase]
    exact h.memBase.trans_le hgrows.b.numValues
  · rw [hgrows.memLen]
    exact h.memLen.trans_le hgrows.b.numValues
  · rw [hgrows.locals]
    exact h.locals

section Rel

variable (base : BitVec 64) (len : ℕ) (before : HostMem)

/-- Memory and locals of the two sides correspond, as long as the translator knows where they are.
-/
structure Data (t : Translator) (st : Wasm.State) (s : Clif.State) : Prop where
  memBase : s.env t.memBase = some (.i64 base)
  memLen : s.env t.memLen = some (.i64 (BitVec.ofNat 64 len))
  locals : ∀ (x : ℕ) (var : Clif.Variable), t.locals[x]? = some var →
    ∃ v, st.locals[x]? = some v ∧ s.vars var = some (.i32 v)
  memory : Mapped base len before st.memory s.mem

/-- The whole correspondence: memory and locals, the stack, and where the function is. A proof
about an instruction starts and ends with one of these. -/
structure Rel (t : Translator) (st : Wasm.State) (s : Clif.State) : Prop where
  here : s.At t.b
  data : Data base len before t st s
  stack : Stacked t.b.numValues s.env t.stack st.stack

variable {base len before} {t t' : Translator} {st : Wasm.State} {s s' : Clif.State}

theorem Data.congr (h : Data base len before t st s) (hready : t.Ready)
    (hmemBase : t'.memBase = t.memBase) (hmemLen : t'.memLen = t.memLen)
    (hlocals : t'.locals = t.locals) (henv : ∀ x < t.b.numValues, s'.env x = s.env x)
    (hvars : s'.vars = s.vars) (hmem : s'.mem = s.mem) : Data base len before t' st s' := by
  refine ⟨?_, ?_, fun x var hvar => ?_, ?_⟩
  · rw [hmemBase, henv _ hready.memBase]
    exact h.memBase
  · rw [hmemLen, henv _ hready.memLen]
    exact h.memLen
  · rw [hlocals] at hvar
    rw [hvars]
    exact h.locals x var hvar
  · rw [hmem]
    exact h.memory

/-- The stack shrinks on both sides, and the rest corresponds as before. -/
theorem Rel.pop {x : Value} {xs : List Value} (h : Rel base len before t st s)
    (hstack : t.stack = x :: xs) {v : BitVec 32} {vs : List (BitVec 32)}
    (hst : st.stack = v :: vs) :
    Rel base len before { t with stack := xs } { st with stack := vs } s ∧
      x < t.b.numValues ∧ s.env x = some (.i32 v) := by
  have hstacked := h.stack
  rw [hstack, hst] at hstacked
  cases hstacked with
  | cons hx hv hrest => exact ⟨⟨h.here, ⟨h.data.1, h.data.2, h.data.3, h.data.4⟩, hrest⟩, hx, hv⟩

variable {f : Function} {d : Clif.Def}

/-- **An instruction that defines a value**: no local and no memory changes, and the value is
there afterwards. -/
theorem Rel.ins (h : Rel base len before t st s) (hready : t.Ready) {b : Builder}
    (hb : b = (t.b.ins d).2) (hwithin : b.Within f) {v : Val} (hv : d.eval s = some v) :
    ∃ s', Walk f.step 1 s s' ∧ Rel base len before { t with b := b } st s' ∧
      s'.env t.b.numValues = some v ∧ ∀ x < t.b.numValues, s'.env x = s.env x := by
  subst hb
  have henv : ∀ x < t.b.numValues, (s.define t.b.numValues v).env x = s.env x := fun x hx =>
    s.env_define_of_lt hx v
  refine ⟨s.define t.b.numValues v, .single (Clif.step_ins hwithin h.here hv),
    ⟨Clif.at_ins h.here, ?_, ?_⟩, s.env_define_self _ _, henv⟩
  · exact h.data.congr hready rfl rfl rfl henv rfl rfl
  · exact h.stack.mono (Nat.le_succ _) henv

/-- **An instruction whose value is pushed**: the stacks grow by corresponding values. -/
theorem Rel.pushIns (h : Rel base len before t st s) (hready : t.Ready)
    (hwithin : (t.pushIns d).b.Within f) {v : BitVec 32} (hv : d.eval s = some (.i32 v)) :
    ∃ s', Walk f.step 1 s s' ∧ Rel base len before (t.pushIns d) (st.push v) s' := by
  obtain ⟨s', hwalk, hrel, hself, -⟩ := h.ins hready rfl hwithin hv
  refine ⟨s', hwalk, hrel.here, ⟨hrel.data.1, hrel.data.2, hrel.data.3, hrel.data.4⟩, ?_⟩
  exact .cons (Nat.lt_succ_self _) hself hrel.stack

theorem Translator.Ready.withBuilder {b : Builder} (h : t.Ready) (hb : t.b.Grows b) :
    Translator.Ready { t with b := b } :=
  ⟨hb.tidy, h.memBase.trans_le hb.numValues, h.memLen.trans_le hb.numValues, h.locals⟩

/-- What is pushed or popped besides changes nothing for the rest. -/
theorem Rel.withStack (h : Rel base len before t st s) {xs : List Value} {vs : List (BitVec 32)}
    (hstack : Stacked t.b.numValues s.env xs vs) :
    Rel base len before { t with stack := xs } { st with stack := vs } s :=
  ⟨h.here, ⟨h.data.1, h.data.2, h.data.3, h.data.4⟩, hstack⟩

variable (f base len before)

/-- The function ends with this outcome, and the memory is this. -/
def Ends (s : Clif.State) (outcome : Clif.Outcome) (memory : List (BitVec 8)) : Prop :=
  ∃ n s' mem, Walk f.step n s s' ∧ f.step s' = .inr (outcome, mem) ∧
    Mapped base len before memory mem

variable {f base len before}

theorem Ends.of_walk {n : ℕ} {outcome : Clif.Outcome} {memory : List (BitVec 8)}
    (hwalk : Walk f.step n s s') (h : Ends base len before f s' outcome memory) :
    Ends base len before f s outcome memory := by
  obtain ⟨m, s'', mem, hwalk', hstep, hmem⟩ := h
  exact ⟨n + m, s'', mem, hwalk.append hwalk', hstep, hmem⟩

/-- The address of an access, as the function computes it. -/
theorem access_eq (a : BitVec 32) (off : BitVec 64) :
    a.setWidth 64 + BitVec.ofInt 64 off.toNat = BitVec.ofNat 64 (a.toNat + off.toNat) := by
  rw [BitVec.ofInt_natCast, BitVec.ofNat_add, BitVec.ofNat_toNat, BitVec.ofNat_toNat,
    BitVec.setWidth_eq]

/-- **The check is exact**: the end of an access does not wrap, as the index is widened before
anything is added. -/
theorem oob_iff (a : BitVec 32) {off : BitVec 64} (hoff : off.toNat < 2 ^ 63)
    (hlen : len < 2 ^ 64) :
    Clif.IntCC.unsignedGreaterThan.holds
      (a.setWidth 64 + BitVec.ofInt 64 off.toNat + BitVec.ofInt 64 4) (BitVec.ofNat 64 len) =
      decide (len < a.toNat + off.toNat + 4) := by
  have ha := a.isLt
  have hfour : BitVec.ofInt 64 4 = 4#64 := rfl
  have hend : (a.setWidth 64 + BitVec.ofInt 64 off.toNat + BitVec.ofInt 64 4).toNat =
      a.toNat + off.toNat + 4 := by
    rw [access_eq, hfour, BitVec.toNat_add, BitVec.toNat_ofNat, BitVec.toNat_ofNat]
    omega
  rw [Clif.IntCC.holds, BitVec.ult, hend, BitVec.toNat_ofNat, Nat.mod_eq_of_lt hlen]

@[simp] theorem isTrue_flag (b : Bool) : (Clif.flag b).isTrue = b := by
  cases b <;> rfl

/-- **The bounds check**: it lets an access pass exactly if it is in bounds. -/
theorem boundsCheck_runs {idx : Value} {off : BitVec 64} {r : Value × Builder} {a : BitVec 32}
    (h : boundsCheck t.b idx off 4 t.memBase t.memLen = .ok r) (hwithin : r.2.Within f)
    (hready : t.Ready) (hrel : Rel base len before t st s) (hlen : len < 2 ^ 64)
    (ha : s.env idx = some (.i32 a)) :
    if a.toNat + off.toNat + 4 ≤ len then
      ∃ n s', Walk f.step n s s' ∧ Rel base len before { t with b := r.2 } st s' ∧
        s'.env r.1 = some (.i64 (base + BitVec.ofNat 64 (a.toNat + off.toNat))) ∧
        ∀ x < t.b.numValues, s'.env x = s.env x
    else Ends base len before f s (.trapped trapOob) st.memory := by
  obtain ⟨hoff, b₁, b₂, b₃, b₄, b₅, b₆, hcheck, rfl⟩ := boundsCheck_ok h
  have htidy := hready.tidy
  have hwithin₆ : b₆.Within f :=
    (Builder.grows_ins (hcheck.grows₆ htidy).tidy _).within hwithin
  obtain ⟨hwithin₁, hwithin₂, hwithin₃, hwithin₄, hwithin₅, hwithinTrap⟩ :=
    hcheck.within htidy hwithin₆
  have hn₁ : b₁.numValues = t.b.numValues + 1 := by rw [hcheck.extended]; rfl
  have hn₂ : b₂.numValues = b₁.numValues + 1 := by rw [hcheck.started]; rfl
  have hn₃ : b₃.numValues = b₂.numValues + 1 := by rw [hcheck.ended]; rfl
  -- the four instructions before the branch
  obtain ⟨s₁, hwalk₁, hrel₁, hv₁, henv₁⟩ := hrel.ins hready hcheck.extended hwithin₁
    (v := .i64 (a.setWidth 64)) (by simp only [Clif.Def.eval, ha])
  have hready₁ := hready.withBuilder (hcheck.grows₁ htidy)
  obtain ⟨s₂, hwalk₂, hrel₂, hv₂, henv₂⟩ := hrel₁.ins hready₁ hcheck.started hwithin₂
    (v := .i64 (a.setWidth 64 + BitVec.ofInt 64 off.toNat)) (by simp only [Clif.Def.eval, hv₁])
  have hready₂ := hready.withBuilder (hcheck.grows₂ htidy)
  obtain ⟨s₃, hwalk₃, hrel₃, hv₃, henv₃⟩ := hrel₂.ins hready₂ hcheck.ended hwithin₃
    (v := .i64 (a.setWidth 64 + BitVec.ofInt 64 off.toNat + BitVec.ofInt 64 4))
    (by simp only [Clif.Def.eval, hv₂])
  have hready₃ := hready.withBuilder (hcheck.grows₃ htidy)
  have hmemLen := hrel₃.data.memLen
  obtain ⟨s₄, hwalk₄, hrel₄, hv₄, henv₄⟩ := hrel₃.ins hready₃ hcheck.compared hwithin₄
    (v := Clif.flag (decide (len < a.toNat + off.toNat + 4)))
    (by simp only [Clif.Def.eval, hv₃, hmemLen, oob_iff a hoff hlen])
  have hwalk := ((hwalk₁.append hwalk₂).append hwalk₃).append hwalk₄
  -- the branch
  have hat₄ : s₄.At b₄.createBlock.2.createBlock.2 := ⟨hrel₄.here.block, hrel₄.here.index⟩
  have hbrif := Clif.step_emit (hcheck.branched ▸ hwithin₅) hat₄
  simp only [Clif.Inst.exec, hv₄, isTrue_flag] at hbrif
  obtain ⟨htrapEmpty, hokEmpty⟩ := hcheck.empty htidy
  split
  · rename_i hle
    rw [decide_eq_false (Nat.not_lt.mpr hle), if_neg Bool.false_ne_true] at hbrif
    have hn₆ : b₆.numValues = b₄.numValues := by rw [hcheck.passed, hcheck.branched]; rfl
    have hrel₅ : Rel base len before { t with b := b₆ } st (s₄.goto (b₄.numBlocks + 1)) := by
      refine ⟨?_, ⟨hrel₄.data.1, hrel₄.data.2, hrel₄.data.3, hrel₄.data.4⟩,
        hrel₄.stack.mono hn₆.ge fun _ _ => rfl⟩
      rw [hcheck.passed]
      exact Clif.at_switchToBlock hokEmpty
    have hstart : (s₄.goto (b₄.numBlocks + 1)).env b₁.numValues =
        some (.i64 (BitVec.ofNat 64 (a.toNat + off.toNat))) := by
      rw [← access_eq, ← hv₂]
      exact (henv₄ _ (by rw [hn₃, hn₂]; omega)).trans (henv₃ _ (by rw [hn₂]; omega))
    have hmemBase := hrel₅.data.memBase
    obtain ⟨s₆, hwalk₆, hrel₆, hv₆, henv₆⟩ := hrel₅.ins
      (hready.withBuilder (hcheck.grows₆ htidy)) rfl hwithin
      (v := .i64 (base + BitVec.ofNat 64 (a.toNat + off.toNat)))
      (by simp only [Clif.Def.eval, hmemBase, hstart, Clif.BinaryOp.apply])
    refine ⟨_, s₆, (hwalk.snoc hbrif).append hwalk₆, hrel₆, hv₆, fun x hx => ?_⟩
    have h₁ : x < b₁.numValues := hx.trans_le (hcheck.grows₁ htidy).numValues
    have h₂ : x < b₂.numValues := hx.trans_le (hcheck.grows₂ htidy).numValues
    have h₃ : x < b₃.numValues := hx.trans_le (hcheck.grows₃ htidy).numValues
    rw [henv₆ x (hx.trans_le (hcheck.grows₆ htidy).numValues)]
    exact (henv₄ x h₃).trans ((henv₃ x h₂).trans ((henv₂ x h₁).trans (henv₁ x hx)))
  · rename_i hle
    rw [decide_eq_true (Nat.not_le.mp hle), if_pos rfl] at hbrif
    have hat : (s₄.goto b₄.numBlocks).At (b₅.switchToBlock b₄.numBlocks) :=
      Clif.at_switchToBlock htrapEmpty
    have htrap := Clif.step_emit hwithinTrap hat
    exact ⟨_, _, _, hwalk.snoc hbrif, htrap, hrel₄.data.memory⟩

end Rel

/-! ## Instructions

Instruction by instruction, the function does what WebAssembly does, and the correspondence is
kept. -/

/-- The trap code that stands for a trap of the source. -/
def trapCode : Wasm.Trap → Clif.TrapCode
  | .memoryOutOfBounds => trapOob
  | .unreachable => trapUnreachable

section Simulates

variable (base : BitVec 64) (len : ℕ) (before : HostMem) (f : Function)

/-- What the translation does where code ends so: it goes on where the translator does, with a
stack of a certain height; or it is at the target of the branch; or it returns or traps. It goes
there in a number of steps that is not said. -/
def Simulates (t t' : Translator) (height fuel : ℕ) (s : Clif.State) : Wasm.Result → Prop
  | .normal st' => st'.stack.length = height ∧
      ∃ n s', Walk f.step n s s' ∧ Rel base len before t' st' s'
  | .branch l st' => ∃ n s' frame, 0 < n ∧ Walk f.step n s s' ∧ t.control[l]? = some frame ∧
      s'.block = frame.branchTarget ∧ s'.index = 0 ∧ Data base len before t st' s'
  | .returned st' => ∃ v vs, st'.stack = v :: vs ∧
      Ends base len before f s (.returned v) st'.memory
  | .trapped trap memory => Ends base len before f s (.trapped (trapCode trap)) memory
  | .invalid => False
  | .exhausted => ∃ n s', fuel ≤ n ∧ Walk f.step n s s'

variable {base len before f} {t t' : Translator} {st : Wasm.State} {s : Clif.State}
  {C : Wasm.Context} {tys tys' rest : List ValType} {fuel : ℕ}

/-- **A local is set** on both sides, to corresponding values. -/
theorem Rel.defVar (h : Rel base len before t st s) (hready : t.Ready) {x : ℕ}
    {var : Clif.Variable} (hvar : t.locals[x]? = some var) {val : Value} {v : BitVec 32}
    (hval : s.env val = some (.i32 v)) (hwithin : (t.b.emit (.defVar var val)).Within f) :
    x < st.locals.length ∧ ∃ s', Walk f.step 1 s s' ∧
      Rel base len before { t with b := t.b.emit (.defVar var val) } (st.setLocal x v) s' := by
  obtain ⟨w, hw, -⟩ := h.data.locals x var hvar
  have hx : x < st.locals.length := (List.getElem?_eq_some_iff.mp hw).1
  have hstep := Clif.step_emit hwithin h.here
  simp only [Clif.Inst.exec, hval] at hstep
  refine ⟨hx, _, .single hstep, Clif.at_emit h.here rfl rfl,
    ⟨h.data.memBase, h.data.memLen, fun y var' hvar' => ?_, h.data.memory⟩, h.stack⟩
  by_cases hyx : y = x
  · subst hyx
    rw [hvar] at hvar'
    cases hvar'
    exact ⟨v, List.getElem?_set_self hx, Function.update_self _ _ _⟩
  · obtain ⟨w', hw', hvars⟩ := h.data.locals y var' hvar'
    refine ⟨w', ?_, ?_⟩
    · rw [Wasm.State.setLocal, List.getElem?_set_ne (Ne.symm hyx)]
      exact hw'
    · have hne : var' ≠ var := by
        rintro rfl
        have hy : y < t.locals.length := (List.getElem?_eq_some_iff.mp hvar').1
        exact hyx ((List.getElem?_inj hy hready.locals).mp (hvar'.trans hvar.symm))
      change Function.update s.vars var (some (.i32 v)) var' = _
      rw [Function.update_of_ne hne]
      exact hvars

/-- A stack of known height has a top. -/
theorem exists_top {st : Wasm.State} {n : ℕ} (h : st.stack.length = n + 1) :
    ∃ v vs, st.stack = v :: vs ∧ vs.length = n := by
  obtain ⟨v, vs, hst⟩ := List.exists_cons_of_length_eq_add_one h
  rw [hst] at h
  exact ⟨v, vs, hst, Nat.succ.inj h⟩

/-- **Arithmetic** is the same on both sides, operator by operator, shifts beyond the width
included. -/
theorem apply_binaryOp (op : Wasm.BinOp) (x y : BitVec 32) :
    (binaryOp op).apply x y = op.eval x y := by
  cases op <;> rfl

/-- **So are comparisons**, signed and unsigned. -/
theorem holds_intCC (op : Wasm.RelOp) (x y : BitVec 32) : (intCC op).holds x y = op.eval x y := by
  cases op <;> rfl

/-- A truth value is a byte there and a word here, so that it is widened. -/
theorem eval_uextend_flag {c : Value} {b : Bool} (h : s.env c = some (Clif.flag b)) :
    Clif.Def.eval s (.uextend .i32 c) = some (.i32 (Wasm.ofBool b)) := by
  rw [Clif.flag] at h
  simp only [Clif.Def.eval, h]
  cases b <;> rfl

/-- A comparison, and its result as a word. -/
theorem Rel.compare (h : Rel base len before t st s) (hready : t.Ready) {d : Clif.Def} {b : Bool}
    (hd : d.eval s = some (Clif.flag b))
    (hwithin : (({ t with b := (t.b.ins d).2 } : Translator).pushIns
      (.uextend .i32 t.b.numValues)).b.Within f) :
    ∃ n s', Walk f.step n s s' ∧
      Rel base len before (({ t with b := (t.b.ins d).2 } : Translator).pushIns
        (.uextend .i32 t.b.numValues)) (st.push (Wasm.ofBool b)) s' := by
  have hgrows := Builder.grows_ins hready.tidy d
  have hwithin' : (t.b.ins d).2.Within f :=
    (Builder.grows_ins hgrows.tidy (.uextend .i32 t.b.numValues)).within hwithin
  obtain ⟨s₁, hwalk₁, hrel₁, hv₁, -⟩ := h.ins hready rfl hwithin' hd
  obtain ⟨s₂, hwalk₂, hrel₂⟩ :=
    hrel₁.pushIns (hready.withBuilder hgrows) hwithin (eval_uextend_flag hv₁)
  exact ⟨_, s₂, hwalk₁.append hwalk₂, hrel₂⟩

/-- **A jump** to a frame is one step, and it leaves memory and locals as they are. -/
theorem Rel.goto (h : Rel base len before t st s) {target : Block} {l : ℕ}
    (htarget : frameAt t.control l = .ok target) (hstep : f.step s = .inl (s.goto target))
    (height : ℕ) : Simulates base len before f t t' height fuel s (.branch l st) := by
  obtain ⟨frame, hframe, rfl⟩ := frameAt_ok htarget
  exact ⟨1, _, frame, Nat.one_pos, .single hstep, hframe, rfl, rfl,
    ⟨h.data.1, h.data.2, h.data.3, h.data.4⟩⟩

/-- The top of the stack, where the translator pops it. -/
theorem Rel.popTop (h : Rel base len before t st s) {message : String}
    {r : Value × List Value} (hpop : Aot.pop t.stack message = .ok r) {n : ℕ}
    (hheight : st.stack.length = n + 1) :
    ∃ v vs, st.stack = v :: vs ∧ vs.length = n ∧
      Rel base len before { t with stack := r.2 } { st with stack := vs } s ∧
      s.env r.1 = some (.i32 v) := by
  obtain ⟨v, vs, hst, hvs⟩ := exists_top hheight
  obtain ⟨hrel, -, hv⟩ := h.pop (pop_ok hpop) hst
  exact ⟨v, vs, hst, hvs, hrel, hv⟩

/-- The top two: the right operand was pushed last. -/
theorem Rel.popTwo (h : Rel base len before t st s) {message message' : String}
    {r r' : Value × List Value} (hpop : Aot.pop t.stack message = .ok r)
    (hpop' : Aot.pop r.2 message' = .ok r') {n : ℕ} (hheight : st.stack.length = n + 2) :
    ∃ rhs lhs vs, st.stack = rhs :: lhs :: vs ∧ vs.length = n ∧
      Rel base len before { t with stack := r'.2 } { st with stack := vs } s ∧
      s.env r.1 = some (.i32 rhs) ∧ s.env r'.1 = some (.i32 lhs) := by
  obtain ⟨rhs, vs, hst, hvs, hrel, hrhs⟩ := h.popTop hpop hheight
  obtain ⟨lhs, vs', hst', hvs', hrel', hlhs⟩ := hrel.popTop hpop' hvs
  obtain rfl : vs = lhs :: vs' := hst'
  exact ⟨rhs, lhs, vs', hst, hvs', hrel', hrhs, hlhs⟩

/-- Values that are there keep what they are. -/
theorem Translator.Ready.withStack (h : t.Ready) (xs : List Value) :
    Translator.Ready { t with stack := xs } :=
  ⟨h.tidy, h.memBase, h.memLen, h.locals⟩

section Instructions

variable (h : Rel base len before t st s) (hwithin : t'.b.Within f)

include h hwithin

theorem simulates_br {l height : ℕ} (hi : translateInstr t (.br l) = .ok t') :
    Simulates base len before f t t' height fuel s ((Instr.br l).exec st) := by
  obtain ⟨target, htarget, hi⟩ := bind_ok hi
  cases hi
  have hstep := Clif.step_emit (i := .jump target) hwithin h.here
  exact h.goto htarget hstep height

theorem simulates_return {n height : ℕ} (hheight : st.stack.length = n + 1)
    (hi : translateInstr t .return_ = .ok t') :
    Simulates base len before f t t' height fuel s (Instr.return_.exec st) := by
  obtain ⟨r, hpop, hi⟩ := bind_ok hi
  cases hi
  obtain ⟨v, vs, hst, -, hrel, hv⟩ := h.popTop hpop hheight
  have hstep := Clif.step_emit (i := .return_ r.1) hwithin h.here
  simp only [Clif.Inst.exec, hv] at hstep
  exact ⟨v, vs, hst, 0, s, s.mem, .nil s, hstep, h.data.memory⟩

theorem simulates_unreachable {height : ℕ} (hi : translateInstr t .unreachable = .ok t') :
    Simulates base len before f t t' height fuel s (Instr.unreachable.exec st) := by
  cases hi
  have hstep := Clif.step_emit (i := .trap trapUnreachable) hwithin h.here
  exact ⟨0, s, s.mem, .nil s, hstep, h.data.memory⟩

variable (hready : t.Ready)

include hready

theorem simulates_localGet {x : ℕ} (hi : translateInstr t (.localGet x) = .ok t') :
    Simulates base len before f t t' (st.stack.length + 1) fuel s ((Instr.localGet x).exec st) := by
  obtain ⟨var, hvar, hi⟩ := bind_ok hi
  cases hi
  obtain ⟨v, hv, hvars⟩ := h.data.locals x var (localVar_ok hvar)
  obtain ⟨s', hwalk, hrel⟩ := h.pushIns hready hwithin (d := .useVar var) hvars
  rw [Instr.exec, hv]
  exact ⟨rfl, 1, s', hwalk, hrel⟩

theorem simulates_localSet {x n : ℕ} (hheight : st.stack.length = n + 1)
    (hi : translateInstr t (.localSet x) = .ok t') :
    Simulates base len before f t t' n fuel s ((Instr.localSet x).exec st) := by
  obtain ⟨var, hvar, hi⟩ := bind_ok hi
  obtain ⟨r, hpop, hi⟩ := bind_ok hi
  cases hi
  obtain ⟨v, vs, hst, hvs, hrel, hv⟩ := h.popTop hpop hheight
  obtain ⟨hx, s', hwalk, hrel'⟩ :=
    hrel.defVar (hready.withStack _) (localVar_ok hvar) hv hwithin
  rw [Instr.exec, hst]
  dsimp only
  rw [if_pos hx]
  exact ⟨hvs, 1, s', hwalk, hrel'⟩

theorem simulates_localTee {x n : ℕ} (hheight : st.stack.length = n + 1)
    (hi : translateInstr t (.localTee x) = .ok t') :
    Simulates base len before f t t' (n + 1) fuel s ((Instr.localTee x).exec st) := by
  obtain ⟨var, hvar, hi⟩ := bind_ok hi
  obtain ⟨r, hpop, hi⟩ := bind_ok hi
  cases hi
  obtain ⟨v, vs, hst, hvs, -, hv⟩ := h.popTop hpop hheight
  obtain ⟨hx, s', hwalk, hrel⟩ := h.defVar hready (localVar_ok hvar) hv hwithin
  rw [Instr.exec, hst]
  dsimp only
  rw [if_pos hx]
  refine ⟨hheight, 1, s', hwalk, ?_⟩
  have hstack : t.stack = r.1 :: r.2 := pop_ok hpop
  rw [hstack] at hrel
  exact hrel

theorem simulates_i32Bin {op : Wasm.BinOp} {n : ℕ} (hheight : st.stack.length = n + 2)
    (hi : translateInstr t (.i32Bin op) = .ok t') :
    Simulates base len before f t t' (n + 1) fuel s ((Instr.i32Bin op).exec st) := by
  obtain ⟨r, hpop, hi⟩ := bind_ok hi
  obtain ⟨r', hpop', hi⟩ := bind_ok hi
  cases hi
  obtain ⟨rhs, lhs, vs, hst, hvs, hrel, hrhs, hlhs⟩ := h.popTwo hpop hpop' hheight
  have heval : Clif.Def.eval s (.binary (binaryOp op) r'.1 r.1) =
      some (.i32 (op.eval lhs rhs)) := by
    simp only [Clif.Def.eval, hlhs, hrhs, apply_binaryOp]
  obtain ⟨s', hwalk, hrel'⟩ := hrel.pushIns (hready.withStack _) hwithin heval
  rw [Instr.exec, hst]
  exact ⟨congrArg Nat.succ hvs, 1, s', hwalk, hrel'⟩

theorem simulates_i32Rel {op : Wasm.RelOp} {n : ℕ} (hheight : st.stack.length = n + 2)
    (hi : translateInstr t (.i32Rel op) = .ok t') :
    Simulates base len before f t t' (n + 1) fuel s ((Instr.i32Rel op).exec st) := by
  obtain ⟨r, hpop, hi⟩ := bind_ok hi
  obtain ⟨r', hpop', hi⟩ := bind_ok hi
  cases hi
  obtain ⟨rhs, lhs, vs, hst, hvs, hrel, hrhs, hlhs⟩ := h.popTwo hpop hpop' hheight
  have heval : Clif.Def.eval s (.icmp (intCC op) r'.1 r.1) =
      some (Clif.flag (op.eval lhs rhs)) := by
    simp only [Clif.Def.eval, hlhs, hrhs, holds_intCC]
  obtain ⟨m, s', hwalk, hrel'⟩ := hrel.compare (hready.withStack _) heval hwithin
  rw [Instr.exec, hst]
  exact ⟨congrArg Nat.succ hvs, m, s', hwalk, hrel'⟩

theorem simulates_i32Eqz {n : ℕ} (hheight : st.stack.length = n + 1)
    (hi : translateInstr t .i32Eqz = .ok t') :
    Simulates base len before f t t' (n + 1) fuel s (Instr.i32Eqz.exec st) := by
  obtain ⟨r, hpop, hi⟩ := bind_ok hi
  cases hi
  obtain ⟨v, vs, hst, hvs, hrel, hv⟩ := h.popTop hpop hheight
  have heval : Clif.Def.eval s (.icmpImmS .equal r.1 0) = some (Clif.flag (v == 0#32)) := by
    simp only [Clif.Def.eval, hv]
    rfl
  obtain ⟨m, s', hwalk, hrel'⟩ := hrel.compare (hready.withStack _) heval hwithin
  rw [Instr.exec, hst]
  exact ⟨congrArg Nat.succ hvs, m, s', hwalk, hrel'⟩

theorem simulates_i32Load {memarg : Wasm.MemArg} {n : ℕ} (hmemory : memarg.memory = 0)
    (hlen : len < 2 ^ 64) (hheight : st.stack.length = n + 1)
    (hi : translateInstr t (.i32Load memarg) = .ok t') :
    Simulates base len before f t t' (n + 1) fuel s ((Instr.i32Load memarg).exec st) := by
  obtain ⟨r, hpop, hi⟩ := bind_ok hi
  obtain ⟨r', hcheck, hi⟩ := bind_ok hi
  cases hi
  obtain ⟨a, vs, hst, hvs, hrel, ha⟩ := h.popTop hpop hheight
  have hready' := hready.withStack r.2
  have hchecked := boundsCheck_grows hready'.tidy hcheck
  have hwithin' : r'.2.Within f := (Builder.grows_ins hchecked.tidy (.load r'.1)).within hwithin
  have hruns := boundsCheck_runs (t := { t with stack := r.2 }) hcheck hwithin' hready' hrel hlen ha
  rw [Instr.exec, hst]
  dsimp only
  rw [if_neg (not_not.mpr hmemory)]
  have hmem := h.data.memory.length
  by_cases hle : a.toNat + memarg.offset.toNat + 4 ≤ len
  · rw [if_pos hle] at hruns
    obtain ⟨m, s₁, hwalk₁, hrel₁, haddr, -⟩ := hruns
    have hread : readAt st.memory (a.toNat + memarg.offset.toNat) 4 =
        some ((st.memory.drop (a.toNat + memarg.offset.toNat)).take 4) := by
      rw [readAt, if_pos (hmem ▸ hle)]
    have heval : Clif.Def.eval s₁ (.load r'.1) = some (.i32 (BitVec.ofNat 32
        (ofLe ((st.memory.drop (a.toNat + memarg.offset.toNat)).take 4)))) := by
      simp only [Clif.Def.eval, haddr]
      rw [hrel₁.data.memory.load hread]
    obtain ⟨s₂, hwalk₂, hrel₂⟩ := hrel₁.pushIns (hready'.withBuilder hchecked) hwithin heval
    rw [hread]
    exact ⟨congrArg Nat.succ hvs, _, s₂, hwalk₁.append hwalk₂, hrel₂⟩
  · rw [if_neg hle] at hruns
    have hread : readAt st.memory (a.toNat + memarg.offset.toNat) 4 = none := by
      rw [readAt, if_neg (hmem ▸ hle)]
    rw [hread]
    exact hruns

theorem simulates_i32Store {memarg : Wasm.MemArg} {n : ℕ} (hmemory : memarg.memory = 0)
    (hlen : len < 2 ^ 64) (hheight : st.stack.length = n + 2)
    (hi : translateInstr t (.i32Store memarg) = .ok t') :
    Simulates base len before f t t' n fuel s ((Instr.i32Store memarg).exec st) := by
  obtain ⟨r, hpop, hi⟩ := bind_ok hi
  obtain ⟨r', hpop', hi⟩ := bind_ok hi
  obtain ⟨r'', hcheck, hi⟩ := bind_ok hi
  cases hi
  obtain ⟨v, a, vs, hst, hvs, hrel, hv, ha⟩ := h.popTwo hpop hpop' hheight
  have hval : r.1 < t.b.numValues := (h.pop (pop_ok hpop) hst).2.1
  have hready' := hready.withStack r'.2
  have hchecked := boundsCheck_grows hready'.tidy hcheck
  have hwithin' : r''.2.Within f :=
    (Builder.grows_emit hchecked.tidy (.store r.1 r''.1)).within hwithin
  have hruns :=
    boundsCheck_runs (t := { t with stack := r'.2 }) hcheck hwithin' hready' hrel hlen ha
  rw [Instr.exec, hst]
  dsimp only
  rw [if_neg (not_not.mpr hmemory)]
  have hsome : (writeAt st.memory (a.toNat + memarg.offset.toNat) (toLe 4 v.toNat)).isSome ↔
      a.toNat + memarg.offset.toNat + 4 ≤ len := by
    rw [Lib.writeAt_isSome, Lib.length_toLe, h.data.memory.length]
  by_cases hle : a.toNat + memarg.offset.toNat + 4 ≤ len
  · rw [if_pos hle] at hruns
    obtain ⟨m, s₁, hwalk₁, hrel₁, haddr, henv⟩ := hruns
    obtain ⟨memory, hwrite⟩ := Option.isSome_iff_exists.mp (hsome.mpr hle)
    have hstep := Clif.step_emit hwithin hrel₁.here
    have hval' : s₁.env r.1 = some (.i32 v) := (henv _ hval).trans hv
    simp only [Clif.Inst.exec, hval', haddr] at hstep
    rw [hwrite]
    exact ⟨hvs, m + 1, _, hwalk₁.snoc hstep, Clif.at_emit hrel₁.here rfl rfl,
      ⟨hrel₁.data.memBase, hrel₁.data.memLen, hrel₁.data.locals,
        hrel₁.data.memory.store hlen hwrite⟩, hrel₁.stack⟩
  · rw [if_neg hle] at hruns
    rw [Option.not_isSome_iff_eq_none.mp (hle ∘ hsome.mp)]
    exact hruns

theorem simulates_brIf {l n : ℕ} (hheight : st.stack.length = n + 1)
    (hi : translateInstr t (.brIf l) = .ok t') :
    Simulates base len before f t t' n fuel s ((Instr.brIf l).exec st) := by
  obtain ⟨target, htarget, hi⟩ := bind_ok hi
  obtain ⟨r, hpop, hi⟩ := bind_ok hi
  cases hi
  obtain ⟨c, vs, hst, hvs, hrel, hc⟩ := h.popTop hpop hheight
  have hat : s.At t.b.createBlock.2 := ⟨h.here.block, h.here.index⟩
  have hstep : f.step s = .inl (s.goto (if c = 0#32 then t.b.numBlocks else target)) := by
    rw [Clif.step_emit (i := .brif r.1 target t.b.numBlocks) hwithin hat]
    simp only [Clif.Inst.exec, hc, Clif.Val.isTrue, bne_iff_ne, ite_not]
  rw [Instr.exec, hst]
  dsimp only
  by_cases hzero : c = 0#32
  · rw [if_pos hzero] at hstep
    have hempty : (t.b.createBlock.2.emit (.brif r.1 target t.b.numBlocks)).blocks
        t.b.numBlocks = [] := by
      rw [Builder.blocks_emit_of_ne (b := t.b.createBlock.2) _ hready.tidy.current.ne']
      exact hready.tidy.unused _ (Nat.le_refl _)
    rw [if_pos hzero]
    exact ⟨hvs, 1, _, .single hstep, Clif.at_switchToBlock hempty,
      ⟨hrel.data.memBase, hrel.data.memLen, hrel.data.locals, hrel.data.memory⟩, hrel.stack⟩
  · rw [if_neg hzero] at hstep
    rw [if_neg hzero]
    obtain ⟨frame, hframe, rfl⟩ := frameAt_ok htarget
    exact ⟨1, _, frame, Nat.one_pos, .single hstep, hframe, rfl, rfl,
      ⟨hrel.data.memBase, hrel.data.memLen, hrel.data.locals, hrel.data.memory⟩⟩

/-- **Every instruction** does in the function what it does in WebAssembly, trap for trap and
value for value. -/
theorem translateInstr_simulates (fuel : ℕ) {i : Instr} (htyped : i.Typed C tys tys')
    (hi : translateInstr t i = .ok t') (hmemories : C.memories ≤ 1)
    (hresults : 0 < C.results.length) (hheight : st.stack.length = (tys ++ rest).length)
    (hlen : len < 2 ^ 64) :
    Simulates base len before f t t' (tys' ++ rest).length fuel s (i.exec st) := by
  have hlength := hheight.trans (Nat.add_comm _ _ ▸ List.length_append)
  cases htyped with
  | nop =>
    cases hi
    exact ⟨hheight, 0, s, .nil s, h⟩
  | i32Const value =>
    cases hi
    have heval : Clif.Def.eval s (.iconst value.toInt) = some (.i32 value) := by
      rw [Clif.Def.eval, BitVec.ofInt_toInt]
    obtain ⟨s', hwalk, hrel⟩ := h.pushIns hready hwithin heval
    exact ⟨congrArg Nat.succ hheight, 1, s', hwalk, hrel⟩
  | localGet hx =>
    rw [List.length_append, Nat.add_comm]
    exact hheight ▸ simulates_localGet h hwithin hready hi
  | localSet hx => exact simulates_localSet h hwithin hready hheight hi
  | localTee hx => exact simulates_localTee h hwithin hready hheight hi
  | drop ty =>
    obtain ⟨r, hpop, hi⟩ := bind_ok hi
    cases hi
    obtain ⟨v, vs, hst, hvs, hrel, -⟩ := h.popTop hpop hheight
    rw [Instr.exec, hst]
    exact ⟨hvs, 0, s, .nil s, hrel⟩
  | i32Bin op => exact simulates_i32Bin h hwithin hready hheight hi
  | i32Rel op => exact simulates_i32Rel h hwithin hready hheight hi
  | i32Eqz => exact simulates_i32Eqz h hwithin hready hheight hi
  | i32Load halign hoffset hmemory =>
    have hzero := Nat.lt_one_iff.mp (hmemory.trans_le hmemories)
    exact simulates_i32Load h hwithin hready hzero hlen hheight hi
  | i32Store halign hoffset hmemory =>
    have hzero := Nat.lt_one_iff.mp (hmemory.trans_le hmemories)
    exact simulates_i32Store h hwithin hready hzero hlen hheight hi
  | br hl below after => exact simulates_br h hwithin hi
  | brIf hl => exact simulates_brIf h hwithin hready hheight hi
  | return_ below after =>
    obtain ⟨n, hn⟩ := Nat.exists_eq_add_one_of_ne_zero hresults.ne'
    have htop : st.stack.length = (n + below.length + rest.length) + 1 := by
      rw [hheight, List.length_append, List.length_append, hn]
      omega
    exact simulates_return h hwithin htop hi
  | unreachable before after => exact simulates_unreachable h hwithin hi
  | other debug before after => cases hi

end Instructions

end Simulates

end Aot

end Wari
