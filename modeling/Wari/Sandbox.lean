import Wari.Checks

/-!
# The memory sandbox

In every run of what the translator emits, from any values, an access is to bytes of the linear
memory: its block is entered through its check only, and the check has the end of the access
without wrapping. A check of an access out of bounds traps.
-/

namespace Wari

open Lib (runFor Walk bind_ok)

namespace Clif

/-- Where a function begins. The base and the length of the memory are its parameters; other
values and variables may be anything. -/
structure Function.Starts (f : Function) (base len : BitVec 64) (s : State) : Prop where
  block : s.block = f.entry
  index : s.index = 0
  base : s.env 0 = some (.i64 base)
  len : s.env 1 = some (.i64 len)

/-- A state that some run comes to, from any start with these two parameters. -/
def Function.Reaches (f : Function) (base len : BitVec 64) (s : State) : Prop :=
  ∃ s₀ n, f.Starts base len s₀ ∧ Walk f.step n s₀ s

/-- The instruction that is executed next, if the block has one there. -/
def Function.at? (f : Function) (s : State) : Option Inst := (f.blocks s.block)[s.index]?

theorem Function.starts_start (f : Function) (base len : BitVec 64) (mem : HostMem) :
    f.Starts base len (f.start base len mem) := ⟨rfl, rfl, rfl, rfl⟩

/-- A step that does not end the run. -/
theorem Function.step_inl {f : Function} {s s' : State} (h : f.step s = .inl s') :
    ∃ inst, f.at? s = some inst ∧ inst.exec s = .inl s' := by
  rw [Function.step] at h
  split at h
  · rename_i inst hinst
    exact ⟨inst, hinst, h⟩
  · cases h

/-- **What an instruction does** where it does not end the run: on to the next one, where it
defines a value at most, or on to another block. -/
theorem Inst.exec_inl {s s' : State} {inst : Inst} (h : inst.exec s = .inl s') :
    (∃ dst d v, inst = .define dst d ∧ d.eval s = some v ∧ s' = s.define dst v) ∨
    ((∀ dst d, inst ≠ .define dst d) ∧ s'.block = s.block ∧ s'.index = s.index + 1 ∧
      s'.env = s.env) ∨
    (s'.index = 0 ∧ s'.env = s.env ∧ (inst = .jump s'.block ∨
      ∃ x t e v, inst = .brif x t e ∧ s.env x = some v ∧
        s'.block = if v.isTrue then t else e)) := by
  cases inst with
  | define dst d =>
    rw [Inst.exec] at h
    split at h
    · rename_i v hv
      cases h
      exact .inl ⟨dst, d, v, rfl, hv, rfl⟩
    · cases h
  | store x addr =>
    rw [Inst.exec] at h
    split at h
    · cases h
      exact .inr (.inl ⟨by simp, rfl, rfl, rfl⟩)
    · cases h
  | defVar var x =>
    rw [Inst.exec] at h
    split at h
    · cases h
      exact .inr (.inl ⟨by simp, rfl, rfl, rfl⟩)
    · cases h
  | jump dest =>
    cases h
    exact .inr (.inr ⟨rfl, rfl, .inl rfl⟩)
  | brif x t e =>
    rw [Inst.exec] at h
    split at h
    · rename_i v hv
      cases h
      exact .inr (.inr ⟨rfl, rfl, .inr ⟨x, t, e, v, rfl, hv, rfl⟩⟩)
    · cases h
  | return_ x =>
    rw [Inst.exec] at h
    split at h <;> cases h
  | trap code => cases h

end Clif

namespace Aot

open Clif (Value Block Builder Def Inst Function State Val HostMem)
open Wasm (Operator ValType)

/-! ## Values in the course of a check

The values a check computes are fixed one by one, and no value is defined twice within it. What is
known at its branch is therefore true of the access behind it. -/

/-- The values a check has defined so far, wherever in it the function is. -/
structure Check.Course (c : Check) (base len : BitVec 64) (s : State) : Prop where
  /-- the index, zero-extended -/
  extended : s.block = c.block → s.index = c.index + 1 →
    ∃ x : BitVec 64, s.env c.first = some (.i64 x) ∧ x.toNat < 2 ^ 32
  /-- where the access begins -/
  started : s.block = c.block → s.index = c.index + 2 →
    ∃ x : BitVec 64, s.env (c.first + 1) = some (.i64 x) ∧ x.toNat < 2 ^ 32 + 2 ^ 63
  /-- where it ends -/
  ended : s.block = c.block → s.index = c.index + 3 →
    ∃ x y : BitVec 64, s.env (c.first + 1) = some (.i64 x) ∧
      s.env (c.first + 2) = some (.i64 y) ∧ y.toNat = x.toNat + 4
  /-- whether that is too far -/
  compared : s.block = c.block → s.index = c.index + 4 →
    ∃ x : BitVec 64, s.env (c.first + 1) = some (.i64 x) ∧
      s.env (c.first + 3) = some (Clif.flag (decide (len.toNat < x.toNat + 4)))
  /-- it is not -/
  passed : s.block = c.okBlock → s.index = 0 →
    ∃ x : BitVec 64, s.env (c.first + 1) = some (.i64 x) ∧ x.toNat + 4 ≤ len.toNat
  /-- the address of the access -/
  addressed : s.block = c.okBlock → s.index = 1 →
    ∃ x : BitVec 64, s.env (c.first + 4) = some (.i64 (base + x)) ∧ x.toNat + 4 ≤ len.toNat

/-- **What holds in every state of a run.** Wherever the function is, the values of the check it
is in are what they were computed to be, and in a checked block the access is within the length.
-/
structure InSandbox (checks : List Check) (base len : BitVec 64) (s : State) : Prop where
  memBase : s.env 0 = some (.i64 base)
  memLen : s.env 1 = some (.i64 len)
  course : ∀ c ∈ checks, c.Course base len s

section Course

variable {c : Check} {base len : BitVec 64} {s s' : State} {f : Function} {inst : Inst}
  {checks : List Check}

theorem eval_uextend {x : Value} {v : Val} (h : Def.eval s (.uextend .i64 x) = some v) :
    ∃ y : BitVec 64, v = .i64 y ∧ y.toNat < 2 ^ 32 := by
  rcases hx : s.env x with _ | (y | y | y) <;> simp only [Def.eval, hx] at h <;> cases h
  · refine ⟨_, rfl, ?_⟩
    rw [BitVec.toNat_setWidth]
    have := y.isLt
    omega
  · refine ⟨_, rfl, ?_⟩
    rw [BitVec.toNat_setWidth]
    have := y.isLt
    omega

/-- An immediate is added without wrapping, where the sum fits. -/
theorem eval_iaddImmS {x : Value} {y : BitVec 64} {n : ℕ} {v : Val}
    (hx : s.env x = some (.i64 y)) (hlt : y.toNat + n < 2 ^ 64)
    (h : Def.eval s (.iaddImmS x n) = some v) :
    ∃ z : BitVec 64, v = .i64 z ∧ z.toNat = y.toNat + n := by
  rw [Def.eval, hx] at h
  cases h
  refine ⟨_, rfl, ?_⟩
  rw [BitVec.ofInt_natCast, BitVec.toNat_add, BitVec.toNat_ofNat]
  omega

/-- The end of the access is compared with the length of the memory, as unsigned numbers. -/
theorem eval_compare {x : Value} {y : BitVec 64} {v : Val} (hx : s.env x = some (.i64 y))
    (hlen : s.env 1 = some (.i64 len)) (h : Def.eval s (.icmp .unsignedGreaterThan x 1) = some v) :
    v = Clif.flag (decide (len.toNat < y.toNat)) := by
  rw [Def.eval, hx, hlen] at h
  cases h
  rfl

/-- The instruction at a place of a check. -/
theorem eq_of_at {blk : Block} {i : ℕ} {inst' : Inst} (hat : f.at? s = some inst)
    (hinst : (f.blocks blk)[i]? = some inst') (hblk : s.block = blk) (hi : s.index = i) :
    inst = inst' := by
  rw [Clif.Function.at?, hblk, hi, hinst] at hat
  exact (Option.some.inj hat).symm

/-- **A check goes on** where a value is defined: its own values come in order, and others do not
disturb them. -/
theorem Check.Course.define (hc : c.Course base len s) (hemitted : c.Emitted f.blocks)
    (hbase : s.env 0 = some (.i64 base)) (hlen : s.env 1 = some (.i64 len)) {dst : Value} {d : Def}
    {v : Val} (hat : f.at? s = some (.define dst d)) (hv : d.eval s = some v) :
    c.Course base len (s.define dst v) := by
  refine ⟨fun hblk hi => ?_, fun hblk hi => ?_, fun hblk hi => ?_, fun hblk hi => ?_,
    fun _ hi => ?_, fun hblk hi => ?_⟩
  · obtain ⟨⟩ := eq_of_at hat hemitted.extend hblk (Nat.succ.inj hi)
    obtain ⟨x, rfl, hx⟩ := eval_uextend hv
    exact ⟨x, State.env_define_self .., hx⟩
  · have hat' : s.index = c.index + 1 := Nat.succ.inj hi
    obtain ⟨⟩ := eq_of_at hat hemitted.start hblk hat'
    obtain ⟨x, hx, hlt⟩ := hc.extended hblk hat'
    have hsmall := hemitted.small
    obtain ⟨y, rfl, hy⟩ := eval_iaddImmS hx (by omega) hv
    exact ⟨y, State.env_define_self .., by omega⟩
  · have hat' : s.index = c.index + 2 := Nat.succ.inj hi
    obtain ⟨⟩ := eq_of_at hat hemitted.ends hblk hat'
    obtain ⟨x, hx, hlt⟩ := hc.started hblk hat'
    obtain ⟨y, rfl, hy⟩ := eval_iaddImmS (n := 4) hx (by omega) hv
    refine ⟨x, y, ?_, State.env_define_self .., hy⟩
    rw [State.env_define_of_lt s (Nat.lt_succ_self _), hx]
  · have hat' : s.index = c.index + 3 := Nat.succ.inj hi
    obtain ⟨⟩ := eq_of_at hat hemitted.compare hblk hat'
    obtain ⟨x, y, hx, hy, hsum⟩ := hc.ended hblk hat'
    obtain rfl := eval_compare hy hlen hv
    refine ⟨x, ?_, ?_⟩
    · rw [State.env_define_of_lt s (Nat.lt_succ_of_lt (Nat.lt_succ_self _)), hx]
    · rw [State.env_define_self, hsum]
  · cases hi
  · have hat' : s.index = 0 := Nat.succ.inj hi
    obtain ⟨⟩ := eq_of_at hat hemitted.address hblk hat'
    obtain ⟨x, hx, hle⟩ := hc.passed hblk hat'
    rw [Def.eval, hbase, hx] at hv
    cases hv
    exact ⟨x, State.env_define_self .., hle⟩

/-- No check is left half way by an instruction that defines nothing. -/
theorem Check.Course.stay (hemitted : c.Emitted f.blocks) (hat : f.at? s = some inst)
    (hdefine : ∀ dst d, inst ≠ .define dst d) (hblock : s'.block = s.block)
    (hindex : s'.index = s.index + 1) : c.Course base len s' := by
  have hno : ∀ {blk i dst d}, (f.blocks blk)[i]? = some (.define dst d) → s'.block = blk →
      s'.index = i + 1 → False := fun hinst hblk hi =>
    hdefine _ _ (eq_of_at hat hinst (hblock.symm.trans hblk) (Nat.succ.inj (hindex.symm.trans hi)))
  refine ⟨fun hblk hi => ?_, fun hblk hi => ?_, fun hblk hi => ?_, fun hblk hi => ?_,
    fun _ hi => ?_, fun hblk hi => ?_⟩
  · exact (hno hemitted.extend hblk hi).elim
  · exact (hno hemitted.start hblk hi).elim
  · exact (hno hemitted.ends hblk hi).elim
  · exact (hno hemitted.compare hblk hi).elim
  · rw [hindex] at hi
    cases hi
  · exact (hno hemitted.address hblk hi).elim

/-- **Into a block**: a checked block is entered through its check, as no other branch goes there.
-/
theorem Check.Course.goto (hc : c.Course base len s) (hemitted : c.Emitted f.blocks)
    (hmem : c ∈ checks) {numBlocks : ℕ} (hat : f.at? s = some inst)
    (hlicensed : Licensed checks numBlocks s.block s.index inst) (hindex : s'.index = 0)
    (henv : s'.env = s.env) (hgoto : inst = .jump s'.block ∨
      ∃ x t e v, inst = .brif x t e ∧ s.env x = some v ∧ s'.block = if v.isTrue then t else e) :
    c.Course base len s' := by
  refine ⟨fun _ hi => ?_, fun _ hi => ?_, fun _ hi => ?_, fun _ hi => ?_, fun hblk _ => ?_,
    fun _ hi => ?_⟩
  · cases hindex.symm.trans hi
  · cases hindex.symm.trans hi
  · cases hindex.symm.trans hi
  · cases hindex.symm.trans hi
  · rw [henv]
    rcases hgoto with hjump | ⟨x, t, e, v, hbranch, hv, hdest⟩
    · exact ((hlicensed.jump _ hjump).2 c hmem hblk).elim
    · obtain ⟨hthen, helse⟩ := (hlicensed.branch x t e hbranch).2.2 c hmem
      rw [hblk] at hdest
      split at hdest
      · exact (hthen hdest.symm).elim
      · rename_i hfalse
        obtain ⟨hblock, hplace⟩ := helse hdest.symm
        rw [hbranch] at hat
        obtain ⟨⟩ := eq_of_at hat hemitted.branch hblock hplace
        obtain ⟨y, hy, hflag⟩ := hc.compared hblock hplace
        rw [hflag] at hv
        cases hv
        refine ⟨y, hy, Nat.not_lt.mp fun hlt => hfalse ?_⟩
        rw [decide_eq_true hlt]
        rfl
  · cases hindex.symm.trans hi

/-- **One step** keeps the state in the sandbox: what a check established stays true until the
access it is for. -/
theorem InSandbox.step {numBlocks : ℕ} (h : InSandbox checks base len s)
    (hemitted : ∀ c ∈ checks, c.Emitted f.blocks)
    (hlicensed : ∀ inst, f.at? s = some inst → Licensed checks numBlocks s.block s.index inst)
    (hs : f.step s = .inl s') : InSandbox checks base len s' := by
  obtain ⟨inst, hat, hexec⟩ := Clif.Function.step_inl hs
  have hlic := hlicensed inst hat
  rcases Clif.Inst.exec_inl hexec with ⟨dst, d, v, rfl, hv, rfl⟩ |
    ⟨hdefine, hblock, hindex, henv⟩ | ⟨hindex, henv, hgoto⟩
  · have hdst : 2 ≤ dst := hlic.dst dst d rfl
    refine ⟨?_, ?_, fun c hc => (h.course c hc).define (hemitted c hc) h.memBase h.memLen hat hv⟩
    · rw [State.env_define_of_lt s (Nat.lt_of_lt_of_le (by decide) hdst), h.memBase]
    · rw [State.env_define_of_lt s (Nat.lt_of_lt_of_le (by decide) hdst), h.memLen]
  · exact ⟨by rw [henv, h.memBase], by rw [henv, h.memLen],
      fun c hc => .stay (hemitted c hc) hat hdefine hblock hindex⟩
  · exact ⟨by rw [henv, h.memBase], by rw [henv, h.memLen], fun c hc =>
      (h.course c hc).goto (hemitted c hc) hc hat hlic hindex henv hgoto⟩

/-- Before the first instruction no check is on. -/
theorem inSandbox_of_starts (hblocks : ∀ c ∈ checks, c.okBlock ≠ f.entry)
    (h : f.Starts base len s) : InSandbox checks base len s := by
  refine ⟨h.base, h.len, fun c hc => ⟨fun _ hi => ?_, fun _ hi => ?_, fun _ hi => ?_,
    fun _ hi => ?_, fun hblk _ => ?_, fun _ hi => ?_⟩⟩
  · cases h.index.symm.trans hi
  · cases h.index.symm.trans hi
  · cases h.index.symm.trans hi
  · cases h.index.symm.trans hi
  · exact (hblocks c hc (hblk.symm.trans h.block)).elim
  · cases h.index.symm.trans hi

end Course

/-! ## The sandbox

Three things: no access leaves the memory, one that would leave it traps, and one within it is
made. -/

/-- A byte of the linear memory, by its address in the host. -/
def InMemory (base len a : BitVec 64) : Prop := ∃ k < len.toNat, a = base + BitVec.ofNat 64 k

/-- Where the memory does not wrap, its bytes are those from the base on. -/
theorem inMemory_iff {base len : BitVec 64} (hfits : base.toNat + len.toNat ≤ 2 ^ 64)
    (a : BitVec 64) :
    InMemory base len a ↔ base.toNat ≤ a.toNat ∧ a.toNat < base.toNat + len.toNat := by
  constructor
  · rintro ⟨k, hk, rfl⟩
    rw [BitVec.toNat_add, BitVec.toNat_ofNat]
    omega
  · rintro ⟨hle, hlt⟩
    refine ⟨a.toNat - base.toNat, by omega, BitVec.eq_of_toNat_eq ?_⟩
    rw [BitVec.toNat_add, BitVec.toNat_ofNat]
    omega

/-- **The memory sandbox** of a function, for any base and length of the memory. -/
structure Sandboxed (f : Function) : Prop where
  /-- an access is to bytes of the memory -/
  contained : ∀ base len s inst x, f.Reaches base len s → f.at? s = some inst →
    inst.address? = some x →
      ∃ a, s.env x = some (.i64 a) ∧ ∀ j < 4, InMemory base len (a + BitVec.ofNat 64 j)
  /-- no sum of a check wraps -/
  noWrap : ∀ base len s dst x imm, f.Reaches base len s →
    f.at? s = some (.define dst (.iaddImmS x imm)) →
      ∃ (a : BitVec 64) (n : ℕ), s.env x = some (.i64 a) ∧ imm = n ∧ a.toNat + n < 2 ^ 64
  /-- every access that was emitted has a check -/
  checked : ∀ blk i inst x, (f.blocks blk)[i]? = some inst → inst.address? = some x →
    ∃ c : Check, c.Emitted f.blocks ∧ blk = c.okBlock ∧ i = 1 ∧ x = c.first + 4
  /-- a check out of bounds traps, and does nothing else -/
  traps : ∀ (c : Check) base len s (x : BitVec 32), c.Emitted f.blocks → f.Reaches base len s →
    s.block = c.block → s.index = c.index → s.env c.idx = some (.i32 x) →
    len.toNat < x.toNat + c.off.toNat + 4 →
      runFor f.step 6 s = some (.trapped .heapOutOfBounds, s.mem)
  /-- a check in bounds comes to its access, at the address meant -/
  passes : ∀ (c : Check) base len s (x : BitVec 32), c.Emitted f.blocks → f.Reaches base len s →
    s.block = c.block → s.index = c.index → s.env c.idx = some (.i32 x) →
    x.toNat + c.off.toNat + 4 ≤ len.toNat →
      ∃ s', Walk f.step 6 s s' ∧ s'.block = c.okBlock ∧ s'.index = 1 ∧ s'.mem = s.mem ∧
        s'.env (c.first + 4) = some (.i64 (base + BitVec.ofNat 64 (x.toNat + c.off.toNat)))

section Runs

variable {f : Function} {c : Check} {base len : BitVec 64} {s s' : State}

/-- An instruction that defines a value, as a step. -/
theorem step_define {dst : Value} {d : Def} {v : Val}
    (hat : (f.blocks s.block)[s.index]? = some (.define dst d)) (hv : d.eval s = some v) :
    f.step s = .inl (s.define dst v) := by
  simp only [Function.step, hat, Inst.exec, hv]

/-- **To the branch** of a check: its instructions run one after the other, and the flag is what
they compute. -/
theorem Check.Emitted.walk (hemitted : c.Emitted f.blocks) (hfirst : 2 ≤ c.first)
    (hlen : s.env 1 = some (.i64 len)) (hblock : s.block = c.block) (hindex : s.index = c.index)
    {x : BitVec 32} (hidx : s.env c.idx = some (.i32 x)) :
    ∃ s', Walk f.step 4 s s' ∧ s'.block = c.block ∧ s'.index = c.index + 4 ∧ s'.mem = s.mem ∧
      s'.env 0 = s.env 0 ∧
      s'.env (c.first + 1) = some (.i64 (BitVec.ofNat 64 (x.toNat + c.off.toNat))) ∧
      s'.env (c.first + 3) =
        some (Clif.flag (decide (len.toNat < x.toNat + c.off.toNat + 4))) := by
  have hsmall := hemitted.small
  have hx := x.isLt
  have h1first : 1 < c.first := hfirst
  have h0first : 0 < c.first := Nat.lt_of_succ_lt hfirst
  have h0 : ∀ k, 0 < c.first + k := fun k => Nat.add_pos_left h0first k
  have h1 : ∀ k, 1 < c.first + k := fun k => Nat.lt_add_right k hfirst
  -- the index
  have hstep₁ := step_define (s := s) (v := .i64 (x.setWidth 64))
    (by rw [hblock, hindex]; exact hemitted.extend) (by simp only [Def.eval, hidx])
  generalize hs₁ : s.define c.first (.i64 (x.setWidth 64)) = s₁ at hstep₁
  have henv₁ : s₁.env c.first = some (.i64 (x.setWidth 64)) := by
    rw [← hs₁, State.env_define_self]
  have hblock₁ : s₁.block = c.block := by rw [← hs₁]; exact hblock
  have hindex₁ : s₁.index = c.index + 1 := by rw [← hs₁, ← hindex]; rfl
  have hlen₁ : s₁.env 1 = some (.i64 len) := by
    rw [← hs₁, State.env_define_of_lt s h1first, hlen]
  -- where the access begins
  have hv₂ : Def.eval s₁ (.iaddImmS c.first c.off.toNat) =
      some (.i64 (BitVec.ofNat 64 (x.toNat + c.off.toNat))) := by
    rw [Def.eval, henv₁]
    refine congrArg (fun y => some (Val.i64 y)) (BitVec.eq_of_toNat_eq ?_)
    rw [BitVec.ofInt_natCast, BitVec.toNat_add, BitVec.toNat_setWidth, BitVec.toNat_ofNat,
      BitVec.toNat_ofNat]
    omega
  have hstep₂ := step_define (s := s₁) (by rw [hblock₁, hindex₁]; exact hemitted.start) hv₂
  generalize hs₂ : s₁.define (c.first + 1)
    (.i64 (BitVec.ofNat 64 (x.toNat + c.off.toNat))) = s₂ at hstep₂
  have henv₂ : s₂.env (c.first + 1) =
      some (.i64 (BitVec.ofNat 64 (x.toNat + c.off.toNat))) := by
    rw [← hs₂, State.env_define_self]
  have hblock₂ : s₂.block = c.block := by rw [← hs₂]; exact hblock₁
  have hindex₂ : s₂.index = c.index + 2 := by rw [← hs₂]; exact congrArg (· + 1) hindex₁
  have hlen₂ : s₂.env 1 = some (.i64 len) := by
    rw [← hs₂, State.env_define_of_lt s₁ (h1 1), hlen₁]
  -- where it ends
  have hv₃ : Def.eval s₂ (.iaddImmS (c.first + 1) 4) =
      some (.i64 (BitVec.ofNat 64 (x.toNat + c.off.toNat + 4))) := by
    rw [Def.eval, henv₂]
    refine congrArg (fun y => some (Val.i64 y)) (BitVec.eq_of_toNat_eq ?_)
    rw [show BitVec.ofInt 64 4 = BitVec.ofNat 64 4 from rfl, BitVec.toNat_add, BitVec.toNat_ofNat,
      BitVec.toNat_ofNat, BitVec.toNat_ofNat]
    omega
  have hstep₃ := step_define (s := s₂) (by rw [hblock₂, hindex₂]; exact hemitted.ends) hv₃
  generalize hs₃ : s₂.define (c.first + 2)
    (.i64 (BitVec.ofNat 64 (x.toNat + c.off.toNat + 4))) = s₃ at hstep₃
  have henv₃ : s₃.env (c.first + 2) =
      some (.i64 (BitVec.ofNat 64 (x.toNat + c.off.toNat + 4))) := by
    rw [← hs₃, State.env_define_self]
  have hblock₃ : s₃.block = c.block := by rw [← hs₃]; exact hblock₂
  have hindex₃ : s₃.index = c.index + 3 := by rw [← hs₃]; exact congrArg (· + 1) hindex₂
  have hlen₃ : s₃.env 1 = some (.i64 len) := by
    rw [← hs₃, State.env_define_of_lt s₂ (h1 2), hlen₂]
  -- the comparison
  have hv₄ : Def.eval s₃ (.icmp .unsignedGreaterThan (c.first + 2) 1) =
      some (Clif.flag (decide (len.toNat < x.toNat + c.off.toNat + 4))) := by
    rw [Def.eval, henv₃, hlen₃]
    refine congrArg (fun b => some (Clif.flag b)) ?_
    rw [Clif.IntCC.holds, BitVec.ult, BitVec.toNat_ofNat, Nat.mod_eq_of_lt (by omega)]
  have hstep₄ := step_define (s := s₃) (by rw [hblock₃, hindex₃]; exact hemitted.compare) hv₄
  refine ⟨_, .cons hstep₁ (.cons hstep₂ (.cons hstep₃ (.single hstep₄))), hblock₃,
    congrArg (· + 1) hindex₃, ?_, ?_, ?_, State.env_define_self ..⟩
  · rw [← hs₃, ← hs₂, ← hs₁]
    rfl
  · rw [State.env_define_of_lt s₃ (h0 3), ← hs₃, State.env_define_of_lt s₂ (h0 2), ← hs₂,
      State.env_define_of_lt s₁ (h0 1), ← hs₁, State.env_define_of_lt s h0first]
  · rw [State.env_define_of_lt s₃ (Nat.add_lt_add_left (by decide) _), ← hs₃,
      State.env_define_of_lt s₂ (Nat.add_lt_add_left (by decide) _), henv₂]

/-- The last instruction of a check goes to the trap or to the access, by the flag. -/
theorem Check.Emitted.branches (hemitted : c.Emitted f.blocks) (hblock : s.block = c.block)
    (hindex : s.index = c.index + 4) {b : Bool}
    (hflag : s.env (c.first + 3) = some (Clif.flag b)) :
    f.step s = .inl (s.goto (if b then c.trapBlock else c.okBlock)) := by
  have hat : (f.blocks s.block)[s.index]? = some (.brif (c.first + 3) c.trapBlock c.okBlock) := by
    rw [hblock, hindex]
    exact hemitted.branch
  simp only [Function.step, hat, Inst.exec, hflag]
  cases b <;> rfl

/-- **A check out of bounds** traps, before anything was accessed. -/
theorem Check.Emitted.traps (hemitted : c.Emitted f.blocks) (hfirst : 2 ≤ c.first)
    (hlen : s.env 1 = some (.i64 len)) (hblock : s.block = c.block) (hindex : s.index = c.index)
    {x : BitVec 32} (hidx : s.env c.idx = some (.i32 x))
    (hout : len.toNat < x.toNat + c.off.toNat + 4) :
    runFor f.step 6 s = some (.trapped .heapOutOfBounds, s.mem) := by
  obtain ⟨s', hwalk, hblock', hindex', hmem, -, -, hflag⟩ :=
    hemitted.walk hfirst hlen hblock hindex hidx
  have hgoto := hemitted.branches hblock' hindex' hflag
  rw [decide_eq_true hout, if_pos rfl] at hgoto
  have htrap : f.step (s'.goto c.trapBlock) = .inr (.trapped .heapOutOfBounds, s.mem) := by
    have hat : (f.blocks (s'.goto c.trapBlock).block)[(s'.goto c.trapBlock).index]? =
        some (.trap trapOob) := hemitted.trap
    rw [Function.step, hat, ← hmem]
    rfl
  exact (hwalk.snoc hgoto).runFor_eq htrap

/-- **A check in bounds** comes to the access, with its address computed. -/
theorem Check.Emitted.passes (hemitted : c.Emitted f.blocks) (hfirst : 2 ≤ c.first)
    (hbase : s.env 0 = some (.i64 base)) (hlen : s.env 1 = some (.i64 len))
    (hblock : s.block = c.block) (hindex : s.index = c.index) {x : BitVec 32}
    (hidx : s.env c.idx = some (.i32 x)) (hin : x.toNat + c.off.toNat + 4 ≤ len.toNat) :
    ∃ s', Walk f.step 6 s s' ∧ s'.block = c.okBlock ∧ s'.index = 1 ∧ s'.mem = s.mem ∧
      s'.env (c.first + 4) = some (.i64 (base + BitVec.ofNat 64 (x.toNat + c.off.toNat))) := by
  obtain ⟨s', hwalk, hblock', hindex', hmem, hbase', hstart, hflag⟩ :=
    hemitted.walk hfirst hlen hblock hindex hidx
  have hgoto := hemitted.branches hblock' hindex' hflag
  rw [decide_eq_false (Nat.not_lt.mpr hin), if_neg Bool.false_ne_true] at hgoto
  have haddr : Def.eval (s'.goto c.okBlock) (.binary .iadd 0 (c.first + 1)) =
      some (.i64 (base + BitVec.ofNat 64 (x.toNat + c.off.toNat))) := by
    have hbase'' : (s'.goto c.okBlock).env 0 = some (.i64 base) := hbase'.trans hbase
    have hstart' : (s'.goto c.okBlock).env (c.first + 1) =
        some (.i64 (BitVec.ofNat 64 (x.toNat + c.off.toNat))) := hstart
    simp only [Def.eval, hbase'', hstart']
    rfl
  have hstep := step_define (s := s'.goto c.okBlock) hemitted.address haddr
  exact ⟨_, (hwalk.snoc hgoto).snoc hstep, rfl, rfl, hmem, State.env_define_self ..⟩

end Runs

/-- Four bytes from `x` on are bytes of the memory. -/
theorem inMemory_access {base len x : BitVec 64} (hle : x.toNat + 4 ≤ len.toNat) {j : ℕ}
    (hj : j < 4) : InMemory base len (base + x + BitVec.ofNat 64 j) := by
  refine ⟨x.toNat + j, by omega, ?_⟩
  rw [BitVec.ofNat_add, BitVec.ofNat_toNat, BitVec.setWidth_eq, BitVec.add_assoc]

/-- **Any body's translation** stays in its sandbox, validated or not: every access it makes has a
check before it. -/
theorem translateBody_sandboxed {decls : List (ℕ × ValType)} {ops : List Operator} {f : Function}
    (h : translateBody decls ops = .ok f) : Sandboxed f := by
  obtain ⟨checks, t, hguarded, rfl⟩ := translateBody_guarded h
  have hlicensed := hguarded.placed.licensed
  -- the first value of a check is neither the base nor the length
  have hfirst : ∀ c : Check, c.Emitted t.b.blocks → 2 ≤ c.first := fun c hc =>
    (hlicensed _ _ _ hc.extend).dst _ _ rfl
  have hreach : ∀ base len s, Function.Reaches ⟨0, t.b.blocks⟩ base len s →
      InSandbox checks base len s := by
    rintro base len s ⟨s₀, n, hstarts, hwalk⟩
    have h₀ := inSandbox_of_starts (fun c hc => (hguarded.blocks c hc).1) hstarts
    clear hstarts
    induction hwalk with
    | nil s => exact h₀
    | cons hstep _ ih => exact ih (h₀.step hguarded.emitted (fun inst => hlicensed _ _ inst) hstep)
  refine ⟨fun base len s inst x hs hat hx => ?_, fun base len s dst x imm hs hat => ?_,
    fun blk i inst x hat hx => ?_, fun c base len s x hc hs hblock hindex hidx hout => ?_,
    fun c base len s x hc hs hblock hindex hidx hin => ?_⟩
  · obtain ⟨c, hc, hblock, hindex, rfl⟩ := (hlicensed _ _ _ hat).access x hx
    obtain ⟨y, hy, hle⟩ := ((hreach base len s hs).course c hc).addressed hblock hindex
    exact ⟨base + y, hy, fun j hj => inMemory_access hle hj⟩
  · obtain ⟨c, hc, hblock, ⟨hindex, rfl, rfl⟩ | ⟨hindex, rfl, rfl⟩⟩ :=
      (hlicensed _ _ _ hat).offset dst x imm rfl
    · obtain ⟨y, hy, hlt⟩ := ((hreach base len s hs).course c hc).extended hblock hindex
      have hsmall := (hguarded.emitted c hc).small
      exact ⟨y, c.off.toNat, hy, rfl, by omega⟩
    · obtain ⟨y, hy, hlt⟩ := ((hreach base len s hs).course c hc).started hblock hindex
      exact ⟨y, 4, hy, rfl, by omega⟩
  · obtain ⟨c, hc, hblock, hindex, haddr⟩ := (hlicensed blk i inst hat).access x hx
    exact ⟨c, hguarded.emitted c hc, hblock, hindex, haddr⟩
  · exact hc.traps (hfirst c hc) (hreach base len s hs).memLen hblock hindex hidx hout
  · have hin' := hreach base len s hs
    exact hc.passes (hfirst c hc) hin'.memBase hin'.memLen hblock hindex hidx hin

/-- **The memory sandbox holds** for every module the translator accepts, validated or not. -/
theorem translateRaw_sandboxed (m : RawModule) {f : Function} (h : translateRaw m = .ok f) :
    Sandboxed f := by
  obtain ⟨body, -, h⟩ := bind_ok h
  exact translateBody_sandboxed h

/-- A module that is not valid: it leaves a value on the stack. -/
def leftover : RawModule where
  importedFuncs := 0
  exports := [⟨"_start", .func, 0⟩]
  bodies := [([], [.instr (.i32Const 5), .instr (.i32Const 0), .instr (.i32Load ⟨2, 8, 0⟩), .end_])]

theorem translateRaw_sandboxed_leftover : ∃ f, translateRaw leftover = .ok f ∧ Sandboxed f :=
  ⟨_, rfl, translateRaw_sandboxed leftover rfl⟩

/-- **No run of `_start` leaves the memory**: where the base and the length fit the address
space, each access of the function that is translated for a well nested module is to bytes from
the base on. -/
theorem translate_contained {m : Wasm.Module} {f : Function} (h : translate m = .ok f)
    {base len : BitVec 64} (hfits : base.toNat + len.toNat ≤ 2 ^ 64) {mem : HostMem} {n : ℕ}
    {s : State} (hwalk : Walk f.step n (f.start base len mem) s) {inst : Inst} {x : Value}
    (hat : f.at? s = some inst) (haddress : inst.address? = some x) :
    ∃ a, s.env x = some (.i64 a) ∧ ∀ j < 4, base.toNat ≤ (a + BitVec.ofNat 64 j).toNat ∧
      (a + BitVec.ofNat 64 j).toNat < base.toNat + len.toNat := by
  rw [← translateRaw_rawModule] at h
  obtain ⟨body, -, h⟩ := bind_ok h
  have hreach : f.Reaches base len s := ⟨_, n, f.starts_start base len mem, hwalk⟩
  obtain ⟨a, ha, hin⟩ := (translateBody_sandboxed h).contained base len s inst x hreach hat haddress
  exact ⟨a, ha, fun j hj => (inMemory_iff hfits _).mp (hin j hj)⟩

end Aot

end Wari
