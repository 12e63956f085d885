import Wari.Lib.Checked
import Wari.Translate

/-!
# What the translator leaves alone

Translating a sequence appends to the block that is being filled and to blocks of its own.
Every other block stays as it is, so the exit of an enclosing block is still empty when its
end comes, and what has been emitted once is part of the function in the end.
-/

namespace Wari

namespace Clif

/-! ## Builders

A builder that only appends. Blocks that were there before keep their instructions, but for the
one that is current. -/

namespace Builder

/-- The current block is one that was created, and no other block has anything in it. -/
structure Tidy (b : Builder) : Prop where
  current : b.current < b.numBlocks
  unused : ∀ blk, b.numBlocks ≤ blk → b.blocks blk = []

/-- The builder goes on: with the current block, and blocks of its own. -/
structure Grows (b b' : Builder) : Prop where
  wasTidy : b.Tidy
  numBlocks : b.numBlocks ≤ b'.numBlocks
  numValues : b.numValues ≤ b'.numValues
  appends : b.blocks b.current <+: b'.blocks b.current
  stays : ∀ blk < b.numBlocks, blk ≠ b.current → b'.blocks blk = b.blocks blk
  current : b'.current = b.current ∨ b.numBlocks ≤ b'.current
  tidy : b'.Tidy

/-- Everything that was emitted is part of the function. -/
def Within (b : Builder) (f : Function) : Prop := ∀ blk, b.blocks blk <+: f.blocks blk

section Grows

variable {b b₁ b₂ : Builder} {f : Function}

theorem Grows.refl (h : b.Tidy) : b.Grows b :=
  ⟨h, Nat.le_refl _, Nat.le_refl _, List.prefix_rfl, fun _ _ _ => rfl, .inl rfl, h⟩

theorem Grows.trans (h₁ : b.Grows b₁) (h₂ : b₁.Grows b₂) : b.Grows b₂ := by
  have hne : ∀ blk < b.numBlocks, blk ≠ b.current → blk ≠ b₁.current := by
    rintro blk hblk hne rfl
    exact h₁.current.elim hne fun hle => absurd hblk (Nat.not_lt.mpr hle)
  refine ⟨h₁.wasTidy, h₁.numBlocks.trans h₂.numBlocks, h₁.numValues.trans h₂.numValues, ?_,
    fun blk hblk hcur => ?_, ?_, h₂.tidy⟩
  · have hblk : b.current < b.numBlocks := h₁.wasTidy.current
    rcases h₁.current with hcur | hcur
    · have happends := h₂.appends
      rw [hcur] at happends
      exact h₁.appends.trans happends
    · rw [h₂.stays _ (hblk.trans_le h₁.numBlocks) (hblk.trans_le hcur).ne]
      exact h₁.appends
  · rw [h₂.stays blk (hblk.trans_le h₁.numBlocks) (hne blk hblk hcur), h₁.stays blk hblk hcur]
  · rcases h₂.current with hcur | hcur
    · rw [hcur]
      exact h₁.current
    · exact .inr (h₁.numBlocks.trans hcur)

theorem blocks_emit_current (b : Builder) (i : Inst) :
    (b.emit i).blocks b.current = b.blocks b.current ++ [i] :=
  Function.update_self _ _ _

theorem blocks_emit_of_ne (i : Inst) {blk : Block} (h : blk ≠ b.current) :
    (b.emit i).blocks blk = b.blocks blk :=
  Function.update_of_ne h _ _

theorem grows_emit (h : b.Tidy) (i : Inst) : b.Grows (b.emit i) := by
  refine ⟨h, Nat.le_refl _, Nat.le_refl _, ?_, fun blk _ hne => ?_, .inl rfl, h.current,
    fun blk hblk => ?_⟩
  · rw [blocks_emit_current]
    exact List.prefix_append _ _
  · exact blocks_emit_of_ne i hne
  · have hne : blk ≠ b.current := by
      rintro rfl
      exact absurd h.current (Nat.not_lt.mpr hblk)
    rw [blocks_emit_of_ne i hne]
    exact h.unused blk hblk

theorem grows_ins (h : b.Tidy) (d : Def) : b.Grows (b.ins d).2 := by
  obtain ⟨-, hblocks, -, happends, hstays, hcurrent, htidy⟩ := grows_emit h (.define b.numValues d)
  exact ⟨h, hblocks, Nat.le_succ _, happends, hstays, hcurrent, htidy.current, htidy.unused⟩

theorem grows_createBlock (h : b.Tidy) : b.Grows b.createBlock.2 :=
  ⟨h, Nat.le_succ _, Nat.le_refl _, List.prefix_rfl, fun _ _ _ => rfl, .inl rfl,
    Nat.lt_succ_of_lt h.current, fun blk hblk => h.unused blk (Nat.le_of_succ_le hblk)⟩

/-- On in a block of its own: what was emitted stays, and the block was not there before. -/
theorem Grows.switchToBlock (h : b.Grows b₁) {blk : Block} (hnew : b.numBlocks ≤ blk)
    (hblk : blk < b₁.numBlocks) : b.Grows (b₁.switchToBlock blk) :=
  ⟨h.wasTidy, h.numBlocks, h.numValues, h.appends, h.stays, .inr hnew, hblk, h.tidy.unused⟩

/-- **What was emitted before** is part of the function as well, since blocks only grow. -/
theorem Grows.within (h : b.Grows b₁) (hwithin : b₁.Within f) :
    b.Within f := by
  intro blk
  by_cases hcur : blk = b.current
  · subst hcur
    exact h.appends.trans (hwithin _)
  · by_cases hblk : blk < b.numBlocks
    · rw [← h.stays blk hblk hcur]
      exact hwithin blk
    · rw [h.wasTidy.unused blk (Nat.not_lt.mp hblk)]
      exact List.nil_prefix

end Grows

end Builder

end Clif

namespace Aot

open Lib (bind_eq_ok bind_ok)
open Clif (Builder Value Block)
open Wasm (Instr Code Operator BlockType)

/-! ## What operators succeed

Where translation goes on, the stack had the operands, and the frame was there. -/

theorem translateOps_cons {t t' : Translator} {op : Operator} {ops : List Operator} :
    translateOps t (op :: ops) = .ok t' ↔
      ∃ t₁, translateOp t op = .ok t₁ ∧ translateOps t₁ ops = .ok t' := by
  rw [translateOps, List.foldlM_cons]
  exact bind_eq_ok

theorem translateOps_append {t t' : Translator} {ops₁ ops₂ : List Operator} :
    translateOps t (ops₁ ++ ops₂) = .ok t' ↔
      ∃ t₁, translateOps t ops₁ = .ok t₁ ∧ translateOps t₁ ops₂ = .ok t' := by
  rw [translateOps, List.foldlM_append]
  exact bind_eq_ok

theorem pop_ok {stack : List Value} {message : String} {r : Value × List Value}
    (h : pop stack message = .ok r) : stack = r.1 :: r.2 := by
  cases stack with
  | nil => cases h
  | cons v stack =>
    cases h
    rfl

theorem frameAt_ok {control : List Frame} {depth : ℕ} {target : Block}
    (h : frameAt control depth = .ok target) :
    ∃ frame, control[depth]? = some frame ∧ frame.branchTarget = target := by
  rw [frameAt] at h
  split at h
  · rename_i frame hframe
    cases h
    exact ⟨frame, hframe, rfl⟩
  · cases h

theorem localVar_ok {t : Translator} {what : String} {x : ℕ} {var : Clif.Variable}
    (h : localVar t what x = .ok var) : t.locals[x]? = some var := by
  rw [localVar] at h
  split at h
  · rename_i hvar
    cases h
    exact hvar
  · cases h

theorem requireEmptyBlockty_ok {bt : BlockType} {u : Unit} (h : requireEmptyBlockty bt = .ok u) :
    bt = .empty := by
  cases bt with
  | empty => rfl
  | _ => cases h

theorem translateOp_loop {t t' : Translator} {bt : BlockType}
    (h : translateOp t (.loop bt) = .ok t') : bt = .empty ∧ t.stack = [] ∧ t' = t.enterLoop := by
  obtain ⟨_, hbt, h⟩ := bind_ok h
  split at h
  · cases h
  · rename_i hstack
    cases h
    exact ⟨requireEmptyBlockty_ok hbt, not_not.mp hstack, rfl⟩

theorem translateOp_block {t t' : Translator} {bt : BlockType}
    (h : translateOp t (.block bt) = .ok t') : bt = .empty ∧ t.stack = [] ∧ t' = t.enterBlock := by
  obtain ⟨_, hbt, h⟩ := bind_ok h
  split at h
  · cases h
  · rename_i hstack
    cases h
    exact ⟨requireEmptyBlockty_ok hbt, not_not.mp hstack, rfl⟩

/-! ## Translators

The same of a translator, with its frames: an operator without a body stays within them. -/

/-- The translator goes on, within the same frames. -/
structure Translator.Grows (t t' : Translator) : Prop where
  b : t.b.Grows t'.b
  memBase : t'.memBase = t.memBase
  memLen : t'.memLen = t.memLen
  locals : t'.locals = t.locals
  control : t'.control = t.control

section Grows

variable {t t₁ t₂ t' : Translator}

theorem Translator.Grows.refl (h : t.b.Tidy) : t.Grows t := ⟨.refl h, rfl, rfl, rfl, rfl⟩

theorem Translator.Grows.trans (h₁ : t.Grows t₁) (h₂ : t₁.Grows t₂) : t.Grows t₂ :=
  ⟨h₁.b.trans h₂.b, h₂.memBase.trans h₁.memBase, h₂.memLen.trans h₁.memLen,
    h₂.locals.trans h₁.locals, h₂.control.trans h₁.control⟩

theorem Translator.grows_pushIns (h : t.b.Tidy) (d : Clif.Def) : t.Grows (t.pushIns d) :=
  ⟨Builder.grows_ins h d, rfl, rfl, rfl, rfl⟩

/-- Something is emitted, and the rest is dead. -/
theorem Translator.grows_deadBlock (h : t.b.Grows t'.b) (hmemBase : t'.memBase = t.memBase)
    (hmemLen : t'.memLen = t.memLen) (hlocals : t'.locals = t.locals)
    (hcontrol : t'.control = t.control) : t.Grows t'.deadBlock := by
  have hcreate := h.trans (Builder.grows_createBlock h.tidy)
  exact ⟨hcreate.switchToBlock h.numBlocks (Nat.lt_succ_self _), hmemBase, hmemLen, hlocals,
    hcontrol⟩

/-- The builder in the course of a bounds check: after each of the four instructions before
the branch, after the branch, and in the block where the access is in bounds. -/
structure Checking (b b₁ b₂ b₃ b₄ b₅ b₆ : Builder) (idx : Value) (off : BitVec 64) (width : ℤ)
    (memLen : Value) : Prop where
  extended : b₁ = (b.ins (.uextend .i64 idx)).2
  started : b₂ = (b₁.ins (.iaddImmS b.numValues off.toNat)).2
  ended : b₃ = (b₂.ins (.iaddImmS b₁.numValues width)).2
  compared : b₄ = (b₃.ins (.icmp .unsignedGreaterThan b₂.numValues memLen)).2
  branched : b₅ = b₄.createBlock.2.createBlock.2.emit
    (.brif b₃.numValues b₄.numBlocks (b₄.numBlocks + 1))
  passed : b₆ = ((b₅.switchToBlock b₄.numBlocks).emit (.trap trapOob)).switchToBlock
    (b₄.numBlocks + 1)

/-- **The bounds check**, instruction by instruction: the states between them are named, so that
each can be reasoned about. -/
theorem boundsCheck_ok {b : Builder} {idx : Value} {off : BitVec 64} {width : ℤ}
    {memBase memLen : Value} {r : Value × Builder}
    (h : boundsCheck b idx off width memBase memLen = .ok r) :
    off.toNat < 2 ^ 63 ∧ ∃ b₁ b₂ b₃ b₄ b₅ b₆,
      Checking b b₁ b₂ b₃ b₄ b₅ b₆ idx off width memLen ∧
        r = b₆.ins (.binary .iadd memBase b₁.numValues) := by
  rw [boundsCheck] at h
  split at h
  · cases h
  · rename_i hoff
    cases h
    exact ⟨Nat.not_le.mp hoff, _, _, _, _, _, _, ⟨rfl, rfl, rfl, rfl, rfl, rfl⟩, rfl⟩

section Checking

variable {b b₁ b₂ b₃ b₄ b₅ b₆ : Builder} {idx memLen : Value} {off : BitVec 64} {width : ℤ}

theorem Checking.grows₁ (h : Checking b b₁ b₂ b₃ b₄ b₅ b₆ idx off width memLen) (hb : b.Tidy) :
    b.Grows b₁ :=
  h.extended ▸ Builder.grows_ins hb _

theorem Checking.grows₂ (h : Checking b b₁ b₂ b₃ b₄ b₅ b₆ idx off width memLen) (hb : b.Tidy) :
    b.Grows b₂ :=
  (h.grows₁ hb).trans (h.started ▸ Builder.grows_ins (h.grows₁ hb).tidy _)

theorem Checking.grows₃ (h : Checking b b₁ b₂ b₃ b₄ b₅ b₆ idx off width memLen) (hb : b.Tidy) :
    b.Grows b₃ :=
  (h.grows₂ hb).trans (h.ended ▸ Builder.grows_ins (h.grows₂ hb).tidy _)

theorem Checking.grows₄ (h : Checking b b₁ b₂ b₃ b₄ b₅ b₆ idx off width memLen) (hb : b.Tidy) :
    b.Grows b₄ :=
  (h.grows₃ hb).trans (h.compared ▸ Builder.grows_ins (h.grows₃ hb).tidy _)

/-- Both blocks are there, and the branch to them is emitted. -/
theorem Checking.grows₅ (h : Checking b b₁ b₂ b₃ b₄ b₅ b₆ idx off width memLen) (hb : b.Tidy) :
    b₄.Grows b₅ := by
  have htrap := Builder.grows_createBlock (h.grows₄ hb).tidy
  have hok := htrap.trans (Builder.grows_createBlock htrap.tidy)
  rw [h.branched]
  exact hok.trans (Builder.grows_emit hok.tidy _)

theorem Checking.numBlocks (h : Checking b b₁ b₂ b₃ b₄ b₅ b₆ idx off width memLen) :
    b₅.numBlocks = b₄.numBlocks + 1 + 1 := by
  rw [h.branched]
  rfl

/-- In the block that traps, nothing but the trap is emitted. -/
theorem Checking.growsTrap (h : Checking b b₁ b₂ b₃ b₄ b₅ b₆ idx off width memLen)
    (hb : b.Tidy) : b.Grows (b₅.switchToBlock b₄.numBlocks) := by
  refine ((h.grows₄ hb).trans (h.grows₅ hb)).switchToBlock (h.grows₄ hb).numBlocks ?_
  rw [h.numBlocks]
  exact Nat.lt_succ_of_lt (Nat.lt_succ_self _)

theorem Checking.grows₆ (h : Checking b b₁ b₂ b₃ b₄ b₅ b₆ idx off width memLen) (hb : b.Tidy) :
    b.Grows b₆ := by
  have htrap := h.growsTrap hb
  have hemit := htrap.trans (Builder.grows_emit htrap.tidy (.trap trapOob))
  rw [h.passed]
  refine hemit.switchToBlock ((h.grows₄ hb).numBlocks.trans (Nat.le_succ _)) ?_
  change b₄.numBlocks + 1 < b₅.numBlocks
  rw [h.numBlocks]
  exact Nat.lt_succ_self _

/-- The block that traps is empty before, and so is the one that does not. -/
theorem Checking.empty (h : Checking b b₁ b₂ b₃ b₄ b₅ b₆ idx off width memLen) (hb : b.Tidy) :
    b₅.blocks b₄.numBlocks = [] ∧
      ((b₅.switchToBlock b₄.numBlocks).emit (.trap trapOob)).blocks (b₄.numBlocks + 1) = [] := by
  have hunused : ∀ blk, b₄.numBlocks ≤ blk → b₅.blocks blk = [] := by
    intro blk hle
    have hne : blk ≠ b₄.createBlock.2.createBlock.2.current :=
      ((h.grows₄ hb).tidy.current.trans_le hle).ne'
    rw [h.branched, Builder.blocks_emit_of_ne _ hne]
    exact (h.grows₄ hb).tidy.unused blk hle
  have hne : b₄.numBlocks + 1 ≠ (b₅.switchToBlock b₄.numBlocks).current := Nat.succ_ne_self _
  refine ⟨hunused _ (Nat.le_refl _), ?_⟩
  rw [Builder.blocks_emit_of_ne _ hne]
  exact hunused _ (Nat.le_succ _)

/-- **All of the check** is part of the function if what follows is. -/
theorem Checking.within (h : Checking b b₁ b₂ b₃ b₄ b₅ b₆ idx off width memLen) (hb : b.Tidy)
    {f : Clif.Function} (hwithin : b₆.Within f) :
    b₁.Within f ∧ b₂.Within f ∧ b₃.Within f ∧ b₄.Within f ∧ b₅.Within f ∧
      ((b₅.switchToBlock b₄.numBlocks).emit (.trap trapOob)).Within f := by
  have htrap : ((b₅.switchToBlock b₄.numBlocks).emit (.trap trapOob)).Within f := by
    rw [h.passed] at hwithin
    exact hwithin
  have h₅ : b₅.Within f := (Builder.grows_emit (h.growsTrap hb).tidy (.trap trapOob)).within htrap
  have h₄ : b₄.Within f := (h.grows₅ hb).within h₅
  have grows₄ : b₃.Grows b₄ := h.compared ▸ Builder.grows_ins (h.grows₃ hb).tidy _
  have grows₃ : b₂.Grows b₃ := h.ended ▸ Builder.grows_ins (h.grows₂ hb).tidy _
  have grows₂ : b₁.Grows b₂ := h.started ▸ Builder.grows_ins (h.grows₁ hb).tidy _
  have h₃ := grows₄.within h₄
  have h₂ := grows₃.within h₃
  exact ⟨grows₂.within h₂, h₂, h₃, h₄, h₅, htrap⟩

end Checking

theorem boundsCheck_grows {b : Builder} {idx : Value} {off : BitVec 64} {width : ℤ}
    {memBase memLen : Value} {r : Value × Builder} (hb : b.Tidy)
    (h : boundsCheck b idx off width memBase memLen = .ok r) : b.Grows r.2 := by
  obtain ⟨-, b₁, b₂, b₃, b₄, b₅, b₆, hcheck, rfl⟩ := boundsCheck_ok h
  have hpassed := hcheck.grows₆ hb
  exact hpassed.trans (Builder.grows_ins hpassed.tidy _)

/-- **An operator without a body** appends, and stays within its frames: no block that was there
before is touched but the current one. -/
theorem translateInstr_grows {i : Instr} (ht : t.b.Tidy) (h : translateInstr t i = .ok t') :
    t.Grows t' := by
  cases i with
  | nop =>
    cases h
    exact .refl ht
  | i32Const value =>
    cases h
    exact Translator.grows_pushIns ht _
  | localGet x =>
    obtain ⟨var, -, h⟩ := bind_ok h
    cases h
    exact Translator.grows_pushIns ht _
  | localSet x =>
    obtain ⟨var, -, h⟩ := bind_ok h
    obtain ⟨r, -, h⟩ := bind_ok h
    cases h
    exact ⟨Builder.grows_emit ht _, rfl, rfl, rfl, rfl⟩
  | localTee x =>
    obtain ⟨var, -, h⟩ := bind_ok h
    obtain ⟨r, -, h⟩ := bind_ok h
    cases h
    exact ⟨Builder.grows_emit ht _, rfl, rfl, rfl, rfl⟩
  | drop =>
    obtain ⟨r, -, h⟩ := bind_ok h
    cases h
    exact ⟨.refl ht, rfl, rfl, rfl, rfl⟩
  | i32Bin op =>
    obtain ⟨r, -, h⟩ := bind_ok h
    obtain ⟨r', -, h⟩ := bind_ok h
    cases h
    exact ⟨Builder.grows_ins ht _, rfl, rfl, rfl, rfl⟩
  | i32Rel op =>
    obtain ⟨r, -, h⟩ := bind_ok h
    obtain ⟨r', -, h⟩ := bind_ok h
    cases h
    have hins := Builder.grows_ins ht (.icmp (intCC op) r'.1 r.1)
    exact ⟨hins.trans (Builder.grows_ins hins.tidy _), rfl, rfl, rfl, rfl⟩
  | i32Eqz =>
    obtain ⟨r, -, h⟩ := bind_ok h
    cases h
    have hins := Builder.grows_ins ht (.icmpImmS .equal r.1 0)
    exact ⟨hins.trans (Builder.grows_ins hins.tidy _), rfl, rfl, rfl, rfl⟩
  | i32Load memarg =>
    obtain ⟨r, -, h⟩ := bind_ok h
    obtain ⟨r', hcheck, h⟩ := bind_ok h
    cases h
    have hchecked := boundsCheck_grows ht hcheck
    exact ⟨hchecked.trans (Builder.grows_ins hchecked.tidy _), rfl, rfl, rfl, rfl⟩
  | i32Store memarg =>
    obtain ⟨r, -, h⟩ := bind_ok h
    obtain ⟨r', -, h⟩ := bind_ok h
    obtain ⟨r'', hcheck, h⟩ := bind_ok h
    cases h
    have hchecked := boundsCheck_grows ht hcheck
    exact ⟨hchecked.trans (Builder.grows_emit hchecked.tidy _), rfl, rfl, rfl, rfl⟩
  | br l =>
    obtain ⟨target, -, h⟩ := bind_ok h
    cases h
    exact Translator.grows_deadBlock (Builder.grows_emit ht _) rfl rfl rfl rfl
  | brIf l =>
    obtain ⟨target, -, h⟩ := bind_ok h
    obtain ⟨r, -, h⟩ := bind_ok h
    cases h
    have hcreate := Builder.grows_createBlock ht
    have hemit := hcreate.trans (Builder.grows_emit hcreate.tidy (.brif r.1 target t.b.numBlocks))
    exact ⟨hemit.switchToBlock (Nat.le_refl _) (Nat.lt_succ_self _), rfl, rfl, rfl, rfl⟩
  | return_ =>
    obtain ⟨r, -, h⟩ := bind_ok h
    cases h
    exact Translator.grows_deadBlock (Builder.grows_emit ht _) rfl rfl rfl rfl
  | unreachable =>
    cases h
    exact Translator.grows_deadBlock (Builder.grows_emit ht _) rfl rfl rfl rfl
  | other debug => cases h

/-! ## Frames

A frame's exit is made when the frame is entered, and nothing is in it until the frame is left. -/

/-- The frame of a block, and that of a loop. -/
def Translator.blockFrame (t : Translator) : Frame := ⟨t.b.numBlocks, t.b.numBlocks, false⟩

def Translator.loopFrame (t : Translator) : Frame := ⟨t.b.numBlocks, t.b.numBlocks + 1, true⟩

theorem grows_enterBlock (ht : t.b.Tidy) : t.b.Grows t.enterBlock.b := Builder.grows_createBlock ht

theorem grows_enterLoop (ht : t.b.Tidy) : t.b.Grows t.enterLoop.b := by
  have hheader := Builder.grows_createBlock ht
  have hexit := hheader.trans (Builder.grows_createBlock hheader.tidy)
  have hjump := hexit.trans (Builder.grows_emit hexit.tidy (.jump t.b.numBlocks))
  exact hjump.switchToBlock (Nat.le_refl _) (Nat.lt_succ_of_lt (Nat.lt_succ_self _))

/-- **Out of a frame**: on in its exit, in which there is nothing yet. -/
theorem leave_grows (frame : Frame) (control : List Frame) (hin : t.b.Grows t₁.b)
    (hbody : t₁.b.Grows t₂.b) (hnew : t.b.numBlocks ≤ frame.exit)
    (hexit : frame.exit < t₁.b.numBlocks) (hcur : frame.exit ≠ t₁.b.current)
    (hempty : t₁.b.blocks frame.exit = []) :
    t.b.Grows (t₂.leave frame control).b ∧
      (t₂.leave frame control).b.blocks frame.exit = [] := by
  have hlt : frame.exit < t₂.b.numBlocks := hexit.trans_le hbody.numBlocks
  have hcur₂ : frame.exit ≠ t₂.b.current := by
    intro heq
    rcases hbody.current with hsame | hle
    · exact hcur (heq.trans hsame)
    · exact absurd (heq ▸ hexit) (Nat.not_lt.mpr hle)
  have htotal := hin.trans hbody
  have hjump := htotal.trans (Builder.grows_emit htotal.tidy (.jump frame.exit))
  refine ⟨hjump.switchToBlock hnew hlt, ?_⟩
  change (t₂.b.emit (.jump frame.exit)).blocks frame.exit = []
  rw [Builder.blocks_emit_of_ne _ hcur₂, hbody.stays _ hexit hcur, hempty]

theorem leave_block (ht : t.b.Tidy) (h : t.enterBlock.Grows t₂) :
    t.Grows (t₂.leave t.blockFrame t.control) ∧
      (t₂.leave t.blockFrame t.control).b.blocks t.b.numBlocks = [] := by
  obtain ⟨hgrows, hempty⟩ := leave_grows t.blockFrame t.control
    (grows_enterBlock ht) h.b (Nat.le_refl _) (Nat.lt_succ_self _) (ht.current.ne')
    (ht.unused _ (Nat.le_refl _))
  exact ⟨⟨hgrows, h.memBase, h.memLen, h.locals, rfl⟩, hempty⟩

theorem leave_loop (ht : t.b.Tidy) (h : t.enterLoop.Grows t₂) :
    t.Grows (t₂.leave t.loopFrame t.control) ∧
      (t₂.leave t.loopFrame t.control).b.blocks (t.b.numBlocks + 1) = [] := by
  have hempty : t.enterLoop.b.blocks (t.b.numBlocks + 1) = [] := by
    have hne : t.b.numBlocks + 1 ≠ t.b.current := (Nat.lt_succ_of_lt ht.current).ne'
    have hstays := Builder.blocks_emit_of_ne (b := t.b.createBlock.2.createBlock.2)
      (.jump t.b.numBlocks) hne
    exact hstays.trans (ht.unused _ (Nat.le_succ _))
  obtain ⟨hgrows, hempty⟩ := leave_grows t.loopFrame t.control
    (grows_enterLoop ht) h.b (Nat.le_succ _) (Nat.lt_succ_self _) (Nat.succ_ne_self _) hempty
  exact ⟨⟨hgrows, h.memBase, h.memLen, h.locals, rfl⟩, hempty⟩

/-- The header of a loop is empty when it is entered. -/
theorem blocks_enterLoop (ht : t.b.Tidy) : t.enterLoop.b.blocks t.b.numBlocks = [] := by
  have hne : t.b.numBlocks ≠ t.b.current := ht.current.ne'
  have hstays := Builder.blocks_emit_of_ne (b := t.b.createBlock.2.createBlock.2)
    (.jump t.b.numBlocks) hne
  exact hstays.trans (ht.unused _ (Nat.le_refl _))

theorem translateOp_end {frame : Frame} {control : List Frame} (h : t.control = frame :: control) :
    translateOp t .end_ = .ok (t.leave frame control) := by
  rw [translateOp, h]

/-! ## Sequences

A body leaves the frames as it found them, so what comes after it can be looked at by itself. -/

/-- **A block, translated**: into it, its body, out of it, and on. -/
theorem translateOps_block {bt : BlockType} {body : Code} {ops : List Operator}
    (hbody : ∀ t₂, translateOps t.enterBlock body.operators = .ok t₂ → t.enterBlock.Grows t₂)
    (h : translateOps t (.block bt :: (body.operators ++ .end_ :: ops)) = .ok t') :
    bt = .empty ∧ t.stack = [] ∧ ∃ t₂, translateOps t.enterBlock body.operators = .ok t₂ ∧
      t.enterBlock.Grows t₂ ∧ translateOps (t₂.leave t.blockFrame t.control) ops = .ok t' := by
  obtain ⟨t₁, hblock, h⟩ := translateOps_cons.mp h
  obtain ⟨hbt, hstack, rfl⟩ := translateOp_block hblock
  obtain ⟨t₂, hops, h⟩ := translateOps_append.mp h
  have hgrows := hbody t₂ hops
  obtain ⟨t₃, hend, h⟩ := translateOps_cons.mp h
  rw [translateOp_end hgrows.control] at hend
  cases hend
  exact ⟨hbt, hstack, t₂, hops, hgrows, h⟩

/-- **A loop, translated**: its header, its body, and what closes it. -/
theorem translateOps_loop {bt : BlockType} {body : Code} {ops : List Operator}
    (hbody : ∀ t₂, translateOps t.enterLoop body.operators = .ok t₂ → t.enterLoop.Grows t₂)
    (h : translateOps t (.loop bt :: (body.operators ++ .end_ :: ops)) = .ok t') :
    bt = .empty ∧ t.stack = [] ∧ ∃ t₂, translateOps t.enterLoop body.operators = .ok t₂ ∧
      t.enterLoop.Grows t₂ ∧ translateOps (t₂.leave t.loopFrame t.control) ops = .ok t' := by
  obtain ⟨t₁, hloop, h⟩ := translateOps_cons.mp h
  obtain ⟨hbt, hstack, rfl⟩ := translateOp_loop hloop
  obtain ⟨t₂, hops, h⟩ := translateOps_append.mp h
  have hgrows := hbody t₂ hops
  obtain ⟨t₃, hend, h⟩ := translateOps_cons.mp h
  rw [translateOp_end hgrows.control] at hend
  cases hend
  exact ⟨hbt, hstack, t₂, hops, hgrows, h⟩

/-- **A sequence** appends, and leaves the frames as they were, by induction on its nesting. -/
theorem translateOps_grows {c : Code} : ∀ {t t' : Translator}, t.b.Tidy →
    translateOps t c.operators = .ok t' → t.Grows t' := by
  induction c with
  | nil =>
    intro t t' ht h
    cases h
    exact .refl ht
  | instr i next ih =>
    intro t t' ht h
    obtain ⟨t₁, hi, h⟩ := translateOps_cons.mp h
    have hinstr := translateInstr_grows ht hi
    exact hinstr.trans (ih hinstr.b.tidy h)
  | block bt body next ihbody ihnext =>
    intro t t' ht h
    obtain ⟨-, -, t₂, -, hgrows, h⟩ :=
      translateOps_block (fun t₂ => ihbody (grows_enterBlock ht).tidy) h
    have hleave := (leave_block ht hgrows).1
    exact hleave.trans (ihnext hleave.b.tidy h)
  | loop bt body next ihbody ihnext =>
    intro t t' ht h
    obtain ⟨-, -, t₂, -, hgrows, h⟩ :=
      translateOps_loop (fun t₂ => ihbody (grows_enterLoop ht).tidy) h
    have hleave := (leave_loop ht hgrows).1
    exact hleave.trans (ihnext hleave.b.tidy h)

end Grows

end Aot

end Wari
