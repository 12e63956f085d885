import Wari.Lowering

/-!
# What the translator emits

Each memory operator is a check of five instructions, two blocks of its own, and the access in
the second of them, which nothing else branches to. This holds of any stream of operators,
validated or not.
-/

namespace Wari

namespace Clif

/-- The address that a memory instruction accesses; the other instructions access none. -/
def Inst.address? : Inst → Option Value
  | .define _ (.load addr) => some addr
  | .store _ addr => some addr
  | _ => none

/-- No load, and no addition of an immediate. -/
def Def.isPlain : Def → Bool
  | .iaddImmS _ _ => false
  | .load _ => false
  | _ => true

theorem length_blocks_emit (b : Builder) (i : Inst) :
    ((b.emit i).blocks b.current).length = (b.blocks b.current).length + 1 := by
  rw [Builder.blocks_emit_current, List.length_append]
  rfl

end Clif

namespace Aot

open Lib (bind_ok)
open Clif (Value Block Variable Builder Def Inst Function)
open Wasm (Operator Instr ValType)

/-! ## The code of a check

What is at a place of the function may be emitted for a reason: it is part of a check, or it
touches no memory and goes to no block that a check guards. -/

/-- Where the check of an access is, and what it is for. -/
structure Check where
  /-- the block it begins in -/
  block : Block
  /-- its first instruction there -/
  index : ℕ
  /-- the index that is checked -/
  idx : Value
  /-- the static offset -/
  off : BitVec 64
  /-- the first of the five values it defines -/
  first : Value
  trapBlock : Block
  okBlock : Block

/-- **The check is there**, and the access after it: the index is widened, the offset and the
width are added, the end is compared with the length, and the branch goes to the access or to the
trap. -/
structure Check.Emitted (c : Check) (blocks : Block → List Inst) : Prop where
  small : c.off.toNat < 2 ^ 63
  extend : (blocks c.block)[c.index]? = some (.define c.first (.uextend .i64 c.idx))
  start : (blocks c.block)[c.index + 1]? =
    some (.define (c.first + 1) (.iaddImmS c.first c.off.toNat))
  ends : (blocks c.block)[c.index + 2]? =
    some (.define (c.first + 2) (.iaddImmS (c.first + 1) 4))
  compare : (blocks c.block)[c.index + 3]? =
    some (.define (c.first + 3) (.icmp .unsignedGreaterThan (c.first + 2) 1))
  branch : (blocks c.block)[c.index + 4]? = some (.brif (c.first + 3) c.trapBlock c.okBlock)
  trap : (blocks c.trapBlock)[0]? = some (.trap trapOob)
  address : (blocks c.okBlock)[0]? = some (.define (c.first + 4) (.binary .iadd 0 (c.first + 1)))
  access : ∃ inst, (blocks c.okBlock)[1]? = some inst ∧ inst.address? = some (c.first + 4)

/-- What may be emitted at a place, where there are these checks: an access or an addition of an
offset only inside a check, and a branch to a checked block only from its check. -/
structure Licensed (checks : List Check) (numBlocks : ℕ) (blk : Block) (i : ℕ) (inst : Inst) :
    Prop where
  /-- the base and the length keep their values -/
  dst : ∀ dst d, inst = .define dst d → 2 ≤ dst
  /-- an access is the second instruction of a checked block -/
  access : ∀ addr, inst.address? = some addr →
    ∃ c ∈ checks, blk = c.okBlock ∧ i = 1 ∧ addr = c.first + 4
  /-- an immediate is added in a check only -/
  offset : ∀ dst x imm, inst = .define dst (.iaddImmS x imm) → ∃ c ∈ checks, blk = c.block ∧
    (i = c.index + 1 ∧ x = c.first ∧ imm = c.off.toNat ∨
      i = c.index + 2 ∧ x = c.first + 1 ∧ imm = 4)
  /-- no jump is to a checked block -/
  jump : ∀ dest, inst = .jump dest → dest < numBlocks ∧ ∀ c ∈ checks, dest ≠ c.okBlock
  /-- no branch is to a checked block, but that of the check -/
  branch : ∀ x t e, inst = .brif x t e → t < numBlocks ∧ e < numBlocks ∧
    ∀ c ∈ checks, t ≠ c.okBlock ∧ (e = c.okBlock → blk = c.block ∧ i = c.index + 4)

section Licensed

variable {checks : List Check} {numBlocks : ℕ} {blk : Block} {i : ℕ} {inst : Inst} {c : Check}

theorem Licensed.define {dst : Value} {d : Def} (hdst : 2 ≤ dst) (hplain : d.isPlain = true) :
    Licensed checks numBlocks blk i (.define dst d) := by
  refine ⟨?_, ?_, ?_, ?_, ?_⟩
  · rintro _ _ ⟨⟩
    exact hdst
  · intro addr haddr
    cases d <;> cases haddr
    cases hplain
  · rintro _ _ _ ⟨⟩
    cases hplain
  · rintro _ ⟨⟩
  · rintro _ _ _ ⟨⟩

theorem Licensed.addImm {dst x : Value} {imm : ℤ} (hdst : 2 ≤ dst) (hc : c ∈ checks)
    (hblk : blk = c.block) (hplace : i = c.index + 1 ∧ x = c.first ∧ imm = c.off.toNat ∨
      i = c.index + 2 ∧ x = c.first + 1 ∧ imm = 4) :
    Licensed checks numBlocks blk i (.define dst (.iaddImmS x imm)) := by
  refine ⟨?_, ?_, ?_, ?_, ?_⟩
  · rintro _ _ ⟨⟩
    exact hdst
  · rintro _ ⟨⟩
  · rintro _ _ _ ⟨⟩
    exact ⟨c, hc, hblk, hplace⟩
  · rintro _ ⟨⟩
  · rintro _ _ _ ⟨⟩

theorem Licensed.accessAt {dst addr : Value} (hdst : 2 ≤ dst)
    (hinst : inst = .define dst (.load addr) ∨ ∃ x, inst = .store x addr) (hc : c ∈ checks)
    (hblk : blk = c.okBlock) (hi : i = 1) (haddr : addr = c.first + 4) :
    Licensed checks numBlocks blk i inst := by
  rcases hinst with rfl | ⟨x, rfl⟩
  · refine ⟨?_, ?_, ?_, ?_, ?_⟩
    · rintro _ _ ⟨⟩
      exact hdst
    · rintro _ ⟨⟩
      exact ⟨c, hc, hblk, hi, haddr⟩
    · rintro _ _ _ ⟨⟩
    · rintro _ ⟨⟩
    · rintro _ _ _ ⟨⟩
  · refine ⟨?_, ?_, ?_, ?_, ?_⟩
    · rintro _ _ ⟨⟩
    · rintro _ ⟨⟩
      exact ⟨c, hc, hblk, hi, haddr⟩
    · rintro _ _ _ ⟨⟩
    · rintro _ ⟨⟩
    · rintro _ _ _ ⟨⟩

theorem Licensed.jumpTo {dest : Block} (hlt : dest < numBlocks)
    (hother : ∀ c ∈ checks, dest ≠ c.okBlock) :
    Licensed checks numBlocks blk i (.jump dest) := by
  refine ⟨?_, ?_, ?_, ?_, ?_⟩
  · rintro _ _ ⟨⟩
  · rintro _ ⟨⟩
  · rintro _ _ _ ⟨⟩
  · rintro _ ⟨⟩
    exact ⟨hlt, hother⟩
  · rintro _ _ _ ⟨⟩

theorem Licensed.branchTo {x : Value} {t e : Block} (ht : t < numBlocks) (he : e < numBlocks)
    (hother : ∀ c ∈ checks, t ≠ c.okBlock ∧ (e = c.okBlock → blk = c.block ∧ i = c.index + 4)) :
    Licensed checks numBlocks blk i (.brif x t e) := by
  refine ⟨?_, ?_, ?_, ?_, ?_⟩
  · rintro _ _ ⟨⟩
  · rintro _ ⟨⟩
  · rintro _ _ _ ⟨⟩
  · rintro _ ⟨⟩
  · rintro _ _ _ ⟨⟩
    exact ⟨ht, he, hother⟩

/-- Neither defines a value nor accesses memory nor goes elsewhere. -/
theorem Licensed.other (hdefine : ∀ dst d, inst ≠ .define dst d) (haddr : inst.address? = none)
    (hjump : ∀ dest, inst ≠ .jump dest) (hbranch : ∀ x t e, inst ≠ .brif x t e) :
    Licensed checks numBlocks blk i inst :=
  ⟨fun _ _ h => (hdefine _ _ h).elim, fun _ h => (by rw [haddr] at h; cases h),
    fun _ _ _ h => (hdefine _ _ h).elim, fun _ h => (hjump _ h).elim,
    fun _ _ _ h => (hbranch _ _ _ h).elim⟩

theorem Licensed.defVar {var : Variable} {x : Value} :
    Licensed checks numBlocks blk i (.defVar var x) :=
  .other (by simp) rfl (by simp) (by simp)

theorem Licensed.return_ {x : Value} : Licensed checks numBlocks blk i (.return_ x) :=
  .other (by simp) rfl (by simp) (by simp)

theorem Licensed.trap {code : Clif.TrapCode} : Licensed checks numBlocks blk i (.trap code) :=
  .other (by simp) rfl (by simp) (by simp)

theorem Licensed.mono {numBlocks' : ℕ} (h : Licensed checks numBlocks blk i inst)
    (hle : numBlocks ≤ numBlocks') : Licensed checks numBlocks' blk i inst := by
  refine ⟨h.dst, h.access, h.offset, fun dest hi => ?_, fun x t e hi => ?_⟩
  · obtain ⟨hlt, hother⟩ := h.jump dest hi
    exact ⟨hlt.trans_le hle, hother⟩
  · obtain ⟨ht, he, hother⟩ := h.branch x t e hi
    exact ⟨ht.trans_le hle, he.trans_le hle, hother⟩

/-- **A further check** takes no license away where its block is new, as no instruction goes to
that block yet. -/
theorem Licensed.add (h : Licensed checks numBlocks blk i inst) (hnew : numBlocks ≤ c.okBlock) :
    Licensed (c :: checks) numBlocks blk i inst := by
  refine ⟨h.dst, fun addr hi => ?_, fun dst x imm hi => ?_, fun dest hi => ?_, fun x t e hi => ?_⟩
  · obtain ⟨c', hc', hplace⟩ := h.access addr hi
    exact ⟨c', List.mem_cons_of_mem _ hc', hplace⟩
  · obtain ⟨c', hc', hplace⟩ := h.offset dst x imm hi
    exact ⟨c', List.mem_cons_of_mem _ hc', hplace⟩
  · obtain ⟨hlt, hother⟩ := h.jump dest hi
    exact ⟨hlt, List.forall_mem_cons.mpr ⟨(hlt.trans_le hnew).ne, hother⟩⟩
  · obtain ⟨ht, he, hother⟩ := h.branch x t e hi
    refine ⟨ht, he, List.forall_mem_cons.mpr ⟨⟨(ht.trans_le hnew).ne, fun heq => ?_⟩, hother⟩⟩
    exact ((he.trans_le hnew).ne heq).elim

end Licensed

/-! ## Builders

A builder only appends, so what was licensed stays so. -/

/-- Everything that was emitted is licensed by the checks that were emitted so far. -/
structure Placed (checks : List Check) (b : Builder) : Prop where
  tidy : b.Tidy
  values : 2 ≤ b.numValues
  licensed : ∀ blk i inst, (b.blocks blk)[i]? = some inst →
    Licensed checks b.numBlocks blk i inst

section Placed

variable {checks : List Check} {b : Builder} {inst : Inst} {c : Check}

theorem Placed.emit (h : Placed checks b)
    (hinst : Licensed checks b.numBlocks b.current (b.blocks b.current).length inst) :
    Placed checks (b.emit inst) := by
  refine ⟨(Builder.grows_emit h.tidy inst).tidy, h.values, fun blk i inst' hi => ?_⟩
  by_cases hcur : blk = b.current
  · subst hcur
    rw [Builder.blocks_emit_current, List.getElem?_append] at hi
    split at hi
    · exact h.licensed _ _ _ hi
    · rename_i hge
      obtain ⟨hlt, rfl⟩ := List.getElem?_eq_some_iff.mp hi
      have hlast : i = (b.blocks b.current).length := by
        rw [List.length_singleton] at hlt
        omega
      subst hlast
      simp only [Nat.sub_self, List.getElem_cons_zero]
      exact hinst
  · rw [Builder.blocks_emit_of_ne _ hcur] at hi
    exact h.licensed _ _ _ hi

theorem Placed.withValues (h : Placed checks b) {n : ℕ} (hle : b.numValues ≤ n) :
    Placed checks { b with numValues := n } :=
  ⟨⟨h.tidy.current, h.tidy.unused⟩, h.values.trans hle, h.licensed⟩

theorem Placed.ins (h : Placed checks b) {d : Def}
    (hd : Licensed checks b.numBlocks b.current (b.blocks b.current).length
      (.define b.numValues d)) : Placed checks (b.ins d).2 :=
  (h.emit hd).withValues (Nat.le_succ _)

theorem Placed.insPlain (h : Placed checks b) {d : Def} (hplain : d.isPlain = true) :
    Placed checks (b.ins d).2 :=
  h.ins (.define h.values hplain)

theorem Placed.createBlock (h : Placed checks b) : Placed checks b.createBlock.2 :=
  ⟨(Builder.grows_createBlock h.tidy).tidy, h.values,
    fun blk i inst hi => (h.licensed blk i inst hi).mono (Nat.le_succ _)⟩

theorem Placed.switchToBlock (h : Placed checks b) {blk : Block} (hlt : blk < b.numBlocks) :
    Placed checks (b.switchToBlock blk) :=
  ⟨⟨hlt, h.tidy.unused⟩, h.values, h.licensed⟩

theorem Placed.add (h : Placed checks b) (hnew : b.numBlocks ≤ c.okBlock) :
    Placed (c :: checks) b :=
  ⟨h.tidy, h.values, fun blk i inst hi => (h.licensed blk i inst hi).add hnew⟩

end Placed

/-! ## The bounds check

The five instructions of a check are followed one at a time, with the two blocks it makes in
between. -/

section Access

variable {checks : List Check} {b b₁ b₂ b₃ b₄ b₅ b₆ : Builder} {idx : Value} {off : BitVec 64}

/-- The check that is emitted next: where it goes, and the values and blocks that it will define.
-/
def nextCheck (b : Builder) (idx : Value) (off : BitVec 64) : Check where
  block := b.current
  index := (b.blocks b.current).length
  idx := idx
  off := off
  first := b.numValues
  trapBlock := b.numBlocks
  okBlock := b.numBlocks + 1

/-- Where the builder is in the course of a check. -/
structure Checking.Course (b b₁ b₂ b₃ b₄ b₆ : Builder) : Prop where
  current₁ : b₁.current = b.current
  current₂ : b₂.current = b.current
  current₃ : b₃.current = b.current
  current₄ : b₄.current = b.current
  length₁ : (b₁.blocks b.current).length = (b.blocks b.current).length + 1
  length₂ : (b₂.blocks b.current).length = (b.blocks b.current).length + 2
  length₃ : (b₃.blocks b.current).length = (b.blocks b.current).length + 3
  length₄ : (b₄.blocks b.current).length = (b.blocks b.current).length + 4
  values₁ : b₁.numValues = b.numValues + 1
  values₂ : b₂.numValues = b.numValues + 2
  values₃ : b₃.numValues = b.numValues + 3
  values₆ : b₆.numValues = b.numValues + 4
  blocks₄ : b₄.numBlocks = b.numBlocks
  current₆ : b₆.current = b.numBlocks + 1

theorem Checking.course {memLen : Value} {width : ℤ}
    (h : Checking b b₁ b₂ b₃ b₄ b₅ b₆ idx off width memLen) :
    Checking.Course b b₁ b₂ b₃ b₄ b₆ := by
  have hcur₁ : b₁.current = b.current := by rw [h.extended]; rfl
  have hcur₂ : b₂.current = b.current := by rw [h.started]; exact hcur₁
  have hcur₃ : b₃.current = b.current := by rw [h.ended]; exact hcur₂
  have hlen₁ : (b₁.blocks b.current).length = (b.blocks b.current).length + 1 := by
    rw [h.extended]
    exact Clif.length_blocks_emit _ _
  have hlen₂ : (b₂.blocks b.current).length = (b.blocks b.current).length + 2 := by
    rw [h.started, ← hcur₁]
    exact (Clif.length_blocks_emit _ _).trans (by rw [hcur₁, hlen₁])
  have hlen₃ : (b₃.blocks b.current).length = (b.blocks b.current).length + 3 := by
    rw [h.ended, ← hcur₂]
    exact (Clif.length_blocks_emit _ _).trans (by rw [hcur₂, hlen₂])
  have hblocks : b₄.numBlocks = b.numBlocks := by
    rw [h.compared, h.ended, h.started, h.extended]
    rfl
  refine ⟨hcur₁, hcur₂, hcur₃, ?_, hlen₁, hlen₂, hlen₃, ?_, ?_, ?_, ?_, ?_, hblocks, ?_⟩
  · rw [h.compared]
    exact hcur₃
  · rw [h.compared, ← hcur₃]
    exact (Clif.length_blocks_emit _ _).trans (by rw [hcur₃, hlen₃])
  · rw [h.extended]
    rfl
  · rw [h.started, h.extended]
    rfl
  · rw [h.ended, h.started, h.extended]
    rfl
  · rw [h.passed, h.branched, h.compared, h.ended, h.started, h.extended]
    rfl
  · rw [h.passed, ← hblocks]
    rfl

/-- The check is licensed, up to the checked block. -/
theorem Checking.placed (h : Checking b b₁ b₂ b₃ b₄ b₅ b₆ idx off 4 1)
    (hb : Placed checks b) (hold : ∀ c ∈ checks, c.okBlock < b.numBlocks) :
    Placed (nextCheck b idx off :: checks) b₆ := by
  have hc := h.course
  have hself : nextCheck b idx off ∈ nextCheck b idx off :: checks := List.mem_cons_self
  have h₀ : Placed (nextCheck b idx off :: checks) b := hb.add (Nat.le_succ _)
  have h₁ : Placed (nextCheck b idx off :: checks) b₁ := h.extended ▸ h₀.insPlain rfl
  have h₂ : Placed (nextCheck b idx off :: checks) b₂ := by
    rw [h.started]
    refine h₁.ins (.addImm h₁.values hself hc.current₁ (.inl ⟨?_, rfl, rfl⟩))
    rw [hc.current₁]
    exact hc.length₁
  have h₃ : Placed (nextCheck b idx off :: checks) b₃ := by
    rw [h.ended]
    refine h₂.ins (.addImm h₂.values hself hc.current₂ (.inr ⟨?_, hc.values₁, rfl⟩))
    rw [hc.current₂]
    exact hc.length₂
  have h₄ : Placed (nextCheck b idx off :: checks) b₄ := h.compared ▸ h₃.insPlain rfl
  have h₅ : Placed (nextCheck b idx off :: checks) b₅ := by
    rw [h.branched]
    refine h₄.createBlock.createBlock.emit (.branchTo ?_ ?_ (List.forall_mem_cons.mpr ⟨?_, ?_⟩))
    · exact Nat.lt_succ_of_lt (Nat.lt_succ_self _)
    · exact Nat.lt_succ_self _
    · refine ⟨?_, fun _ => ⟨hc.current₄, ?_⟩⟩
      · rw [hc.blocks₄]
        exact (Nat.lt_succ_self _).ne
      · exact (congrArg (fun blk => (b₄.blocks blk).length) hc.current₄).trans hc.length₄
    · intro c hmem
      have hlt := hold c hmem
      rw [hc.blocks₄]
      exact ⟨hlt.ne', fun heq => absurd (heq ▸ hlt) (Nat.not_lt.mpr (Nat.le_succ _))⟩
  have hnum := h.numBlocks
  rw [h.passed]
  refine ((h₅.switchToBlock ?_).emit .trap).switchToBlock ?_
  · rw [hnum]
    exact Nat.lt_succ_of_lt (Nat.lt_succ_self _)
  · exact (Nat.lt_succ_self _).trans_eq hnum.symm

/-- The checked block is empty when it is entered. -/
theorem Checking.empty₆ {memLen : Value} {width : ℤ}
    (h : Checking b b₁ b₂ b₃ b₄ b₅ b₆ idx off width memLen) (hb : b.Tidy) :
    b₆.blocks b₆.current = [] := by
  rw [h.passed]
  exact (h.empty hb).2

/-- **All of the check is emitted** once the access is: each instruction is found at the place
where it was emitted. -/
theorem Checking.emitted (h : Checking b b₁ b₂ b₃ b₄ b₅ b₆ idx off 4 1) (hb : b.Tidy)
    (hoff : off.toNat < 2 ^ 63) {inst : Inst} (haddr : inst.address? = some b₆.numValues)
    {f : Function}
    (hwithin : ((b₆.ins (.binary .iadd 0 b₁.numValues)).2.emit inst).Within f) :
    (nextCheck b idx off).Emitted f.blocks := by
  have hc := h.course
  have hgrows₆ := h.grows₆ hb
  have hins := Builder.grows_ins hgrows₆.tidy (.binary .iadd 0 b₁.numValues)
  have hwithin₇ := (Builder.grows_emit hins.tidy inst).within hwithin
  obtain ⟨within₁, within₂, within₃, within₄, within₅, withinTrap⟩ :=
    h.within hb (hins.within hwithin₇)
  have hextend := Clif.getElem?_of_within (b := b) (i := .define b.numValues (.uextend .i64 idx))
    (h.extended ▸ within₁)
  have hstart := Clif.getElem?_of_within (b := b₁)
    (i := .define b₁.numValues (.iaddImmS b.numValues off.toNat)) (h.started ▸ within₂)
  have hends := Clif.getElem?_of_within (b := b₂)
    (i := .define b₂.numValues (.iaddImmS b₁.numValues 4)) (h.ended ▸ within₃)
  have hcompare := Clif.getElem?_of_within (b := b₃)
    (i := .define b₃.numValues (.icmp .unsignedGreaterThan b₂.numValues 1)) (h.compared ▸ within₄)
  have hbranch := Clif.getElem?_of_within (b := b₄.createBlock.2.createBlock.2)
    (i := .brif b₃.numValues b₄.numBlocks (b₄.numBlocks + 1)) (h.branched ▸ within₅)
  have htrap := Clif.getElem?_of_within withinTrap
  have haddress := Clif.getElem?_of_within (b := b₆)
    (i := .define b₆.numValues (.binary .iadd 0 b₁.numValues)) hwithin₇
  have haccess := Clif.getElem?_of_within hwithin
  have hbranchAt : b₄.createBlock.2.createBlock.2.blocks b₄.createBlock.2.createBlock.2.current =
      b₄.blocks b.current := congrArg b₄.blocks hc.current₄
  have htrapAt : (b₅.switchToBlock b₄.numBlocks).blocks (b₅.switchToBlock b₄.numBlocks).current =
      [] := (h.empty hb).1
  have haccessAt : ((b₆.ins (.binary .iadd 0 b₁.numValues)).2.blocks
      (b₆.ins (.binary .iadd 0 b₁.numValues)).2.current).length = 1 :=
    (Clif.length_blocks_emit b₆ (.define b₆.numValues (.binary .iadd 0 b₁.numValues))).trans
      (by rw [h.empty₆ hb]; rfl)
  have hbranchCur : b₄.createBlock.2.createBlock.2.current = b.current := hc.current₄
  have htrapCur : (b₅.switchToBlock b₄.numBlocks).current = b.numBlocks := hc.blocks₄
  have haccessCur : (b₆.ins (.binary .iadd 0 b₁.numValues)).2.current = b.numBlocks + 1 :=
    hc.current₆
  rw [hc.current₁, hc.length₁, hc.values₁] at hstart
  rw [hc.current₂, hc.length₂, hc.values₁, hc.values₂] at hends
  rw [hc.current₃, hc.length₃, hc.values₂, hc.values₃] at hcompare
  rw [hbranchAt, hbranchCur, hc.length₄, hc.values₃, hc.blocks₄] at hbranch
  rw [htrapAt, htrapCur] at htrap
  rw [h.empty₆ hb, hc.current₆, hc.values₁, hc.values₆] at haddress
  rw [haccessAt, haccessCur] at haccess
  rw [hc.values₆] at haddr
  exact {
    small := hoff
    extend := hextend
    start := hstart
    ends := hends
    compare := hcompare
    branch := hbranch
    trap := htrap
    address := haddress
    access := ⟨inst, haccess, haddr⟩ }

end Access

/-! ## Operators

One lemma a kind of operator. None of them looks at the types of what is on the stack, which is
why the result holds of modules that were not validated. -/

/-- **What holds all along**: everything is licensed by checks that are there, and no frame leads
to a checked block. The second part is what keeps a `br` of the module out of the checked blocks.
-/
structure Guarded (checks : List Check) (t : Translator) : Prop where
  placed : Placed checks t.b
  emitted : ∀ c ∈ checks, c.Emitted t.b.blocks
  blocks : ∀ c ∈ checks, c.okBlock ≠ 0 ∧ c.okBlock < t.b.numBlocks
  frames : ∀ frame ∈ t.control, ∀ dest ∈ [frame.branchTarget, frame.exit],
    dest < t.b.numBlocks ∧ ∀ c ∈ checks, dest ≠ c.okBlock
  memBase : t.memBase = 0
  memLen : t.memLen = 1

/-- What is appended to leaves a check where it is. -/
theorem Check.Emitted.mono {c : Check} {blocks blocks' : Block → List Inst}
    (h : c.Emitted blocks) (hle : ∀ blk, blocks blk <+: blocks' blk) : c.Emitted blocks' := by
  have hget : ∀ {blk i inst}, (blocks blk)[i]? = some inst → (blocks' blk)[i]? = some inst :=
    fun {blk i inst} hi => by
      obtain ⟨rest, hrest⟩ := hle blk
      rw [← hrest, List.getElem?_append_left (List.getElem?_eq_some_iff.mp hi).1, hi]
  obtain ⟨inst, haccess, haddr⟩ := h.access
  exact ⟨h.small, hget h.extend, hget h.start, hget h.ends, hget h.compare, hget h.branch,
    hget h.trap, hget h.address, inst, hget haccess, haddr⟩

section Operators

variable {checks : List Check} {t t' : Translator}

/-- On with no check of its own, within the same frames. -/
theorem Guarded.onward (h : Guarded checks t) (hplaced : Placed checks t'.b)
    (hle : ∀ blk, t.b.blocks blk <+: t'.b.blocks blk) (hblocks : t.b.numBlocks ≤ t'.b.numBlocks)
    (hframes : ∀ frame ∈ t'.control, frame ∈ t.control ∨
      ∀ dest ∈ [frame.branchTarget, frame.exit], t.b.numBlocks ≤ dest ∧ dest < t'.b.numBlocks)
    (hbase : t'.memBase = t.memBase) (hlen : t'.memLen = t.memLen) : Guarded checks t' := by
  refine ⟨hplaced, fun c hc => (h.emitted c hc).mono hle, fun c hc => ?_,
    fun frame hframe dest hdest => ?_, hbase.trans h.memBase, hlen.trans h.memLen⟩
  · obtain ⟨hne, hlt⟩ := h.blocks c hc
    exact ⟨hne, hlt.trans_le hblocks⟩
  · rcases hframes frame hframe with hold | hnew
    · obtain ⟨hlt, hother⟩ := h.frames frame hold dest hdest
      exact ⟨hlt.trans_le hblocks, hother⟩
    · obtain ⟨hge, hlt⟩ := hnew dest hdest
      exact ⟨hlt, fun c hc => ((h.blocks c hc).2.trans_le hge).ne'⟩

/-- On with the same frames, in the current block and in new ones. -/
theorem Guarded.grow (h : Guarded checks t) (hplaced : Placed checks t'.b) (hgrows : t.Grows t') :
    Guarded checks t' := by
  refine h.onward hplaced (fun blk => ?_) hgrows.b.numBlocks (fun frame hframe => ?_)
    hgrows.memBase hgrows.memLen
  · have hwithin : t'.b.Within ⟨0, t'.b.blocks⟩ := fun _ => List.prefix_rfl
    exact hgrows.b.within hwithin blk
  · rw [hgrows.control] at hframe
    exact .inl hframe

/-- The block a branch goes to is no checked one. -/
theorem Guarded.target (h : Guarded checks t) {depth : ℕ} {target : Block}
    (htarget : frameAt t.control depth = .ok target) :
    target < t.b.numBlocks ∧ ∀ c ∈ checks, target ≠ c.okBlock := by
  obtain ⟨frame, hframe, rfl⟩ := frameAt_ok htarget
  exact h.frames frame (List.mem_of_getElem? hframe) _ List.mem_cons_self

/-- The rest is dead: it goes into a new block, in which there is no instruction yet. -/
theorem Placed.deadBlock (h : Placed checks t.b) : Placed checks t.deadBlock.b :=
  h.createBlock.switchToBlock (Nat.lt_succ_self _)

/-- **An access** comes with a check of its own, in front of it and for its own address. -/
theorem Guarded.access (h : Guarded checks t) {idx : Value} {off : BitVec 64}
    {r : Value × Builder} (hcheck : boundsCheck t.b idx off 4 t.memBase t.memLen = .ok r)
    {inst : Inst} (hinst : inst = .define r.2.numValues (.load r.1) ∨ ∃ x, inst = .store x r.1)
    (hb : ∃ n, r.2.numValues ≤ n ∧ t'.b = { r.2.emit inst with numValues := n })
    (hcontrol : t'.control = t.control) (hbase : t'.memBase = t.memBase)
    (hlen : t'.memLen = t.memLen) : Guarded (nextCheck t.b idx off :: checks) t' := by
  rw [h.memBase, h.memLen] at hcheck
  obtain ⟨hoff, b₁, b₂, b₃, b₄, b₅, b₆, hsteps, rfl⟩ := boundsCheck_ok hcheck
  obtain ⟨n, hn, hb⟩ := hb
  have hc := hsteps.course
  have htidy := h.placed.tidy
  have h₇ := (hsteps.placed h.placed fun c hmem => (h.blocks c hmem).2).insPlain
    (d := .binary .iadd 0 b₁.numValues) rfl
  have hlen₇ : ((b₆.ins (.binary .iadd 0 b₁.numValues)).2.blocks
      (b₆.ins (.binary .iadd 0 b₁.numValues)).2.current).length = 1 :=
    (Clif.length_blocks_emit b₆ (.define b₆.numValues (.binary .iadd 0 b₁.numValues))).trans
      (by rw [hsteps.empty₆ htidy]; rfl)
  have hplaced : Placed (nextCheck t.b idx off :: checks)
      ((b₆.ins (.binary .iadd 0 b₁.numValues)).2.emit inst) := by
    exact h₇.emit (.accessAt h₇.values hinst List.mem_cons_self hc.current₆ hlen₇ hc.values₆)
  have hblocks : t'.b.blocks = ((b₆.ins (.binary .iadd 0 b₁.numValues)).2.emit inst).blocks := by
    rw [hb]
  have hgrows : t.b.Grows ((b₆.ins (.binary .iadd 0 b₁.numValues)).2.emit inst) := by
    have hgrows₇ := (hsteps.grows₆ htidy).trans
      (Builder.grows_ins (hsteps.grows₆ htidy).tidy (.binary .iadd 0 b₁.numValues))
    exact hgrows₇.trans (Builder.grows_emit hgrows₇.tidy inst)
  have hwithin : ((b₆.ins (.binary .iadd 0 b₁.numValues)).2.emit inst).Within
      ⟨0, t'.b.blocks⟩ := by
    intro blk
    simp [hblocks]
  have hnum : t.b.numBlocks + 2 = t'.b.numBlocks := by
    have hnum₅ := hsteps.numBlocks
    rw [hc.blocks₄] at hnum₅
    rw [hb, ← hnum₅, hsteps.passed]
    rfl
  have hold : t.b.numBlocks ≤ t'.b.numBlocks := (Nat.le_add_right _ 2).trans_eq hnum
  refine ⟨?_, List.forall_mem_cons.mpr ⟨?_, fun c hmem => ?_⟩,
    List.forall_mem_cons.mpr ⟨⟨Nat.succ_ne_zero _, ?_⟩, fun c hmem => ?_⟩,
    fun frame hframe dest hdest => ?_, hbase.trans h.memBase, hlen.trans h.memLen⟩
  · rw [hb]
    exact hplaced.withValues hn
  · refine hsteps.emitted htidy hoff ?_ hwithin
    rcases hinst with rfl | ⟨x, rfl⟩ <;> rfl
  · exact (h.emitted c hmem).mono (hgrows.within hwithin)
  · rw [← hnum]
    exact Nat.lt_succ_self _
  · obtain ⟨hne, hlt⟩ := h.blocks c hmem
    exact ⟨hne, hlt.trans_le hold⟩
  · rw [hcontrol] at hframe
    obtain ⟨hlt, hother⟩ := h.frames frame hframe dest hdest
    exact ⟨hlt.trans_le hold, List.forall_mem_cons.mpr
      ⟨(hlt.trans_le (Nat.le_succ _)).ne, hother⟩⟩

/-- **An operator without a body**, with whatever values are on the stack: nothing is assumed
about how they came there. -/
theorem translateInstr_guarded {i : Instr} (h : Guarded checks t)
    (hi : translateInstr t i = .ok t') : ∃ checks', Guarded checks' t' := by
  have hgrows := translateInstr_grows h.placed.tidy hi
  cases i with
  | nop =>
    cases hi
    exact ⟨checks, h⟩
  | i32Const value =>
    cases hi
    exact ⟨checks, h.grow (h.placed.insPlain rfl) hgrows⟩
  | localGet x =>
    obtain ⟨var, -, hi⟩ := bind_ok hi
    cases hi
    exact ⟨checks, h.grow (h.placed.insPlain rfl) hgrows⟩
  | localSet x =>
    obtain ⟨var, -, hi⟩ := bind_ok hi
    obtain ⟨r, -, hi⟩ := bind_ok hi
    cases hi
    exact ⟨checks, h.grow (h.placed.emit .defVar) hgrows⟩
  | localTee x =>
    obtain ⟨var, -, hi⟩ := bind_ok hi
    obtain ⟨r, -, hi⟩ := bind_ok hi
    cases hi
    exact ⟨checks, h.grow (h.placed.emit .defVar) hgrows⟩
  | drop =>
    obtain ⟨r, -, hi⟩ := bind_ok hi
    cases hi
    exact ⟨checks, h.grow h.placed hgrows⟩
  | i32Bin op =>
    obtain ⟨r, -, hi⟩ := bind_ok hi
    obtain ⟨r', -, hi⟩ := bind_ok hi
    cases hi
    exact ⟨checks, h.grow (h.placed.insPlain rfl) hgrows⟩
  | i32Rel op =>
    obtain ⟨r, -, hi⟩ := bind_ok hi
    obtain ⟨r', -, hi⟩ := bind_ok hi
    cases hi
    have hcompare := h.placed.insPlain (d := .icmp (intCC op) r'.1 r.1) rfl
    exact ⟨checks, h.grow (hcompare.insPlain rfl) hgrows⟩
  | i32Eqz =>
    obtain ⟨r, -, hi⟩ := bind_ok hi
    cases hi
    have hcompare := h.placed.insPlain (d := .icmpImmS .equal r.1 0) rfl
    exact ⟨checks, h.grow (hcompare.insPlain rfl) hgrows⟩
  | i32Load memarg =>
    obtain ⟨r, -, hi⟩ := bind_ok hi
    obtain ⟨r', hcheck, hi⟩ := bind_ok hi
    cases hi
    exact ⟨_, h.access hcheck (.inl rfl) ⟨_, Nat.le_succ _, rfl⟩ rfl rfl rfl⟩
  | i32Store memarg =>
    obtain ⟨r, -, hi⟩ := bind_ok hi
    obtain ⟨r', -, hi⟩ := bind_ok hi
    obtain ⟨r'', hcheck, hi⟩ := bind_ok hi
    cases hi
    exact ⟨_, h.access hcheck (.inr ⟨r.1, rfl⟩) ⟨_, Nat.le_refl _, rfl⟩ rfl rfl rfl⟩
  | br depth =>
    obtain ⟨target, htarget, hi⟩ := bind_ok hi
    cases hi
    obtain ⟨hlt, hother⟩ := h.target htarget
    have hjump : Placed checks (t.b.emit (.jump target)) := h.placed.emit (.jumpTo hlt hother)
    exact ⟨checks, h.grow (Placed.deadBlock (t := { t with b := t.b.emit (.jump target) }) hjump)
      hgrows⟩
  | brIf depth =>
    obtain ⟨target, htarget, hi⟩ := bind_ok hi
    obtain ⟨r, -, hi⟩ := bind_ok hi
    cases hi
    obtain ⟨hlt, hother⟩ := h.target htarget
    refine ⟨checks, h.grow ((h.placed.createBlock.emit (.branchTo ?_ ?_ fun c hc => ⟨?_, ?_⟩)
      ).switchToBlock ?_) hgrows⟩
    · exact Nat.lt_succ_of_lt hlt
    · exact Nat.lt_succ_self _
    · exact hother c hc
    · exact fun heq => ((h.blocks c hc).2.ne' heq).elim
    · exact Nat.lt_succ_self _
  | return_ =>
    obtain ⟨r, -, hi⟩ := bind_ok hi
    cases hi
    exact ⟨checks, h.grow (Placed.deadBlock
      (t := { t with b := t.b.emit (.return_ r.1), stack := r.2 }) (h.placed.emit .return_)) hgrows⟩
  | unreachable =>
    cases hi
    exact ⟨checks, h.grow (Placed.deadBlock (t := { t with b := t.b.emit (.trap trapUnreachable) })
      (h.placed.emit .trap)) hgrows⟩
  | other debug => cases hi

/-- What is emitted comes after what there is. -/
theorem blocks_prefix_emit (b : Builder) (inst : Inst) (blk : Block) :
    b.blocks blk <+: (b.emit inst).blocks blk := by
  by_cases hcur : blk = b.current
  · subst hcur
    rw [Builder.blocks_emit_current]
    exact List.prefix_append _ _
  · simp [Builder.blocks_emit_of_ne _ hcur]

/-- **Into a block.** The new block is for later, and what is emitted goes on where it was. -/
theorem enterBlock_guarded (h : Guarded checks t) : Guarded checks t.enterBlock := by
  refine h.onward h.placed.createBlock (fun _ => List.prefix_rfl) (Nat.le_succ _)
    (fun frame hframe => ?_) rfl rfl
  rcases List.mem_cons.mp hframe with rfl | hold
  · refine .inr fun dest hdest => ?_
    obtain rfl : dest = t.b.numBlocks := by simpa using hdest
    exact ⟨Nat.le_refl _, Nat.lt_succ_self _⟩
  · exact .inl hold

/-- **Into a loop.** The header is empty, and the jump into it accesses nothing. -/
theorem enterLoop_guarded (h : Guarded checks t) : Guarded checks t.enterLoop := by
  have hlt : t.b.numBlocks < t.b.numBlocks + 1 + 1 := Nat.lt_succ_of_lt (Nat.lt_succ_self _)
  have hjump : Placed checks (t.b.createBlock.2.createBlock.2.emit (.jump t.b.numBlocks)) :=
    h.placed.createBlock.createBlock.emit
      (.jumpTo hlt fun c hc => (h.blocks c hc).2.ne')
  refine h.onward (hjump.switchToBlock hlt)
    (fun blk => blocks_prefix_emit t.b.createBlock.2.createBlock.2 (.jump t.b.numBlocks) blk)
    (Nat.le_add_right _ 2) (fun frame hframe => ?_) rfl rfl
  rcases List.mem_cons.mp hframe with rfl | hold
  · refine .inr fun dest hdest => ?_
    rcases List.mem_pair.mp hdest with rfl | rfl
    · exact ⟨Nat.le_refl _, hlt⟩
    · exact ⟨Nat.le_succ _, Nat.lt_succ_self _⟩
  · exact .inl hold

/-- **Out of a frame.** What follows goes into the frame's end block, which is still empty. -/
theorem leave_guarded {frame : Frame} {control : List Frame} (h : Guarded checks t)
    (hcontrol : t.control = frame :: control) : Guarded checks (t.leave frame control) := by
  have hframe : frame ∈ t.control := hcontrol ▸ List.mem_cons_self
  obtain ⟨hlt, hother⟩ := h.frames frame hframe frame.exit (by simp)
  refine h.onward ((h.placed.emit (.jumpTo hlt hother)).switchToBlock hlt)
    (blocks_prefix_emit t.b (.jump frame.exit)) (Nat.le_refl _)
    (fun frame' hframe' => .inl ?_) rfl rfl
  rw [hcontrol]
  exact List.mem_cons_of_mem _ hframe'

/-- **An operator** keeps everything licensed. Loads and stores bring a check of their own, and
the others access nothing. -/
theorem translateOp_guarded {op : Operator} (h : Guarded checks t)
    (hop : translateOp t op = .ok t') : ∃ checks', Guarded checks' t' := by
  cases op with
  | instr i => exact translateInstr_guarded h hop
  | block bt =>
    obtain ⟨-, -, rfl⟩ := translateOp_block hop
    exact ⟨checks, enterBlock_guarded h⟩
  | loop bt =>
    obtain ⟨-, -, rfl⟩ := translateOp_loop hop
    exact ⟨checks, enterLoop_guarded h⟩
  | end_ =>
    cases hcontrol : t.control with
    | cons frame control =>
      rw [translateOp_end hcontrol] at hop
      cases hop
      exact ⟨checks, leave_guarded h hcontrol⟩
    | nil =>
      rw [translateOp, hcontrol] at hop
      obtain ⟨r, -, hop⟩ := bind_ok hop
      cases hop
      exact ⟨checks, h.onward (h.placed.emit .return_) (blocks_prefix_emit t.b (.return_ r.1))
        (Nat.le_refl _) (fun frame hframe => by cases hframe) rfl rfl⟩

/-- **Any stream of operators** keeps everything licensed, and by induction the whole body does.
-/
theorem translateOps_guarded {ops : List Operator} (h : Guarded checks t)
    (hops : translateOps t ops = .ok t') : ∃ checks', Guarded checks' t' := by
  induction ops generalizing checks t with
  | nil =>
    cases hops
    exact ⟨checks, h⟩
  | cons op ops ih =>
    obtain ⟨t₁, hop, hops⟩ := translateOps_cons.mp hops
    obtain ⟨checks', h'⟩ := translateOp_guarded h hop
    exact ih h' hops

theorem entryTranslator_guarded : Guarded [] entryTranslator := by
  refine ⟨⟨⟨Nat.zero_lt_one, fun _ _ => rfl⟩, Nat.le_refl _, ?_⟩, ?_, ?_, ?_, rfl, rfl⟩
  · intro blk i inst hi
    cases hi
  · intro c hc
    cases hc
  · intro c hc
    cases hc
  · intro frame hframe
    cases hframe

theorem declareLocal_guarded (h : Guarded checks t) : Guarded checks (declareLocal t) := by
  have hvar : Placed checks t.b.declareVar.2 :=
    ⟨⟨h.placed.tidy.current, h.placed.tidy.unused⟩, h.placed.values, h.placed.licensed⟩
  have hins : Placed checks (t.b.declareVar.2.ins (.iconst 0)).2 := hvar.insPlain rfl
  refine h.onward (hins.emit .defVar) (fun blk => ?_) (Nat.le_refl _) (fun _ hframe => .inl hframe)
    rfl rfl
  have hconst := blocks_prefix_emit t.b.declareVar.2 (.define t.b.numValues (.iconst 0)) blk
  exact hconst.trans (blocks_prefix_emit (t.b.declareVar.2.ins (.iconst 0)).2
    (.defVar t.b.numVars t.b.numValues) blk)

theorem declareLocals_guarded {decls : List (ℕ × ValType)} (h : Guarded checks t)
    (hdecls : declareLocals t decls = .ok t') : Guarded checks t' := by
  induction decls generalizing t with
  | nil =>
    cases hdecls
    exact h
  | cons decl decls ih =>
    obtain ⟨count, ty⟩ := decl
    rw [declareLocals] at hdecls
    split at hdecls
    · cases hdecls
    · refine ih ?_ hdecls
      have hmany : ∀ n, Guarded checks (declareLocal^[n] t) := by
        intro n
        induction n with
        | zero => exact h
        | succ n ihn =>
          rw [Function.iterate_succ_apply']
          exact declareLocal_guarded ihn
      exact hmany count

end Operators

/-! ## Bodies

The parser hands over a body as a flat list of operators. A body that is well nested is one of
these (`translateRaw_rawModule`). -/

/-- Translate a body: declarations of locals and operators, as the parser reads them. -/
def translateBody (decls : List (ℕ × ValType)) (ops : List Operator) : Except String Function := do
  let t ← declareLocals entryTranslator decls
  let t ← translateOps t ops
  .ok ⟨0, t.b.blocks⟩

/-- The body of the `_start` export, among the bodies there are. -/
def findBody {β : Type} (importedFuncs : ℕ) (exports : List Wasm.Export) (bodies : List β) :
    Except String β :=
  match startFunc none exports with
  | .error e => .error e
  | .ok none => .error "module has no \x60_start\x60 export"
  | .ok (some idx) =>
    if idx < importedFuncs then .error "_start resolves to an imported function"
    else
      let bodyIdx := idx - importedFuncs
      match bodies[bodyIdx]? with
      | some body => .ok body
      | none => .error ("no code-section body at index " ++ toString bodyIdx)

/-- A module as it is parsed, validated or not: a body is any operators in any order. -/
structure RawModule where
  importedFuncs : ℕ
  exports : List Wasm.Export
  bodies : List (List (ℕ × ValType) × List Operator)

/-- **Translate** the `_start` export of a module that may not have been validated. -/
def translateRaw (m : RawModule) : Except String Function := do
  let body ← findBody m.importedFuncs m.exports m.bodies
  translateBody body.1 body.2

/-- A module whose bodies are well nested, as it is parsed. -/
def rawModule (m : Wasm.Module) : RawModule where
  importedFuncs := m.importedFuncs
  exports := m.exports
  bodies := m.funcs.map fun f => (f.locals, f.operators)

/-- It is translated all the same, to what its validated form is translated to. -/
theorem translateRaw_rawModule (m : Wasm.Module) : translateRaw (rawModule m) = translate m := by
  rw [translateRaw, translate, findBody, findStartBody, rawModule]
  rcases startFunc none m.exports with e | _ | idx
  · rfl
  · rfl
  · dsimp only
    split
    · rfl
    · rw [List.getElem?_map]
      cases m.funcs[idx - m.importedFuncs]? <;> rfl

/-- **What is emitted for any body** is licensed by checks that are there. -/
theorem translateBody_guarded {decls : List (ℕ × ValType)} {ops : List Operator} {f : Function}
    (h : translateBody decls ops = .ok f) : ∃ checks t, Guarded checks t ∧ f = ⟨0, t.b.blocks⟩ := by
  obtain ⟨t₁, hdecls, h⟩ := bind_ok h
  obtain ⟨t₂, hops, h⟩ := bind_ok h
  cases h
  obtain ⟨checks, hguarded⟩ :=
    translateOps_guarded (declareLocals_guarded entryTranslator_guarded hdecls) hops
  exact ⟨checks, t₂, hguarded, rfl⟩

end Aot

end Wari
