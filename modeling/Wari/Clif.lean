import Mathlib.Logic.Function.Basic
import Wari.Lib.Bytes
import Wari.Lib.Stepper

/-!
# Cranelift functions and their builder

Functions of basic blocks over values, with the instructions the translator emits, what each
of them does, and the builder that appends them. Variables are as the builder presents them:
`defVar` gives a variable its value from here on, and `useVar` is its value here.
-/

namespace Wari.Clif

open Lib (ofLe toLe)

/-! ## Instructions

The instructions the translator emits, and no others. Types are those of the values it makes. -/

abbrev Value : Type := ℕ
abbrev Block : Type := ℕ
abbrev Variable : Type := ℕ

/-- The types of values; the translator uses no others. -/
inductive Ty where
  | i32
  | i64
  deriving DecidableEq, Repr

/-- The conditions of a comparison, signed and unsigned. -/
inductive IntCC where
  | equal
  | notEqual
  | signedLessThan
  | unsignedLessThan
  | signedGreaterThan
  | signedLessThanOrEqual
  | signedGreaterThanOrEqual
  | unsignedGreaterThan
  deriving DecidableEq, Repr

/-- The instructions on two values of one type, which wrap around. -/
inductive BinaryOp where
  | iadd
  | isub
  | imul
  | band
  | bor
  | bxor
  | ishl
  deriving DecidableEq, Repr

/-- The reasons for a trap: an access outside the memory, or one the translator numbers itself. -/
inductive TrapCode where
  | heapOutOfBounds
  | user (code : ℕ)
  deriving DecidableEq, Repr

/-- The instructions that define a value. The rest of the instructions are in `Inst`. -/
inductive Def where
  /-- a constant of type `i32` -/
  | iconst (n : ℤ)
  | binary (op : BinaryOp) (x y : Value)
  | icmp (cc : IntCC) (x y : Value)
  | icmpImmS (cc : IntCC) (x : Value) (imm : ℤ)
  | uextend (ty : Ty) (x : Value)
  | iaddImmS (x : Value) (imm : ℤ)
  /-- a value of type `i32` -/
  | load (addr : Value)
  | useVar (var : Variable)
  deriving DecidableEq, Repr

/-- The instructions, those that define a value and those that store, jump or end. -/
inductive Inst where
  | define (dst : Value) (d : Def)
  | store (x addr : Value)
  | defVar (var : Variable) (x : Value)
  | jump (dest : Block)
  | brif (c : Value) (thenDest elseDest : Block)
  | return_ (x : Value)
  | trap (code : TrapCode)
  deriving DecidableEq, Repr

/-- A function of two parameters of type `i64`, its first values. -/
structure Function where
  entry : Block
  blocks : Block → List Inst

/-! ## Execution

A block runs to its end and goes on in another; a function runs until it returns or traps. Loads
and stores are of a memory of bytes addressed by 64 bits. -/

/-- What a value is while the function runs. -/
inductive Val where
  | i8 (x : BitVec 8)
  | i32 (x : BitVec 32)
  | i64 (x : BitVec 64)
  deriving DecidableEq, Repr

/-- The memory of the host: a byte at each address, of which the linear memory of the tenant is a
small part. -/
abbrev HostMem : Type := BitVec 64 → BitVec 8

/-- A word of four bytes is loaded, least significant first. Addresses wrap around. -/
def HostMem.load (mem : HostMem) (addr : BitVec 64) : BitVec 32 :=
  BitVec.ofNat 32 (ofLe ((List.range 4).map fun j => mem (addr + BitVec.ofNat 64 j)))

/-- A word of four bytes is stored, least significant first, and every other byte stays as it is.
-/
def HostMem.store (mem : HostMem) (addr : BitVec 64) (x : BitVec 32) : HostMem := fun a =>
  if (a - addr).toNat < 4 then (toLe 4 x.toNat).getD (a - addr).toNat 0#8 else mem a

/-- Where a function is, what its values and variables are, and the memory. A value that was not
computed yet is `none`, and an instruction that uses it is stuck. -/
structure State where
  block : Block
  index : ℕ
  env : Value → Option Val
  vars : Variable → Option Val
  mem : HostMem

/-- How a function ends. `stuck` is no end of a real one: a theorem that excludes it has shown
that each instruction has a meaning. -/
inductive Outcome where
  | returned (x : BitVec 32)
  | trapped (code : TrapCode)
  /-- an instruction has no meaning here -/
  | stuck
  deriving DecidableEq, Repr

/-- Arithmetic is modulo the width; shifts are by a count modulo the width. -/
def BinaryOp.apply {w : ℕ} : BinaryOp → BitVec w → BitVec w → BitVec w
  | .iadd, x, y => x + y
  | .isub, x, y => x - y
  | .imul, x, y => x * y
  | .band, x, y => x &&& y
  | .bor, x, y => x ||| y
  | .bxor, x, y => x ^^^ y
  | .ishl, x, y => x <<< (y.toNat % w)

/-- When a condition holds of two values, read as signed or as unsigned numbers as its name tells.
-/
def IntCC.holds {w : ℕ} : IntCC → BitVec w → BitVec w → Bool
  | .equal, x, y => x == y
  | .notEqual, x, y => x != y
  | .signedLessThan, x, y => x.slt y
  | .unsignedLessThan, x, y => x.ult y
  | .signedGreaterThan, x, y => y.slt x
  | .signedLessThanOrEqual, x, y => x.sle y
  | .signedGreaterThanOrEqual, x, y => y.sle x
  | .unsignedGreaterThan, x, y => y.ult x

/-- The result of a comparison, which is a byte, 1 or 0. -/
def flag (b : Bool) : Val := .i8 (if b then 1#8 else 0#8)

/-- What an instruction defines its value as; `none` where an operand is undefined or of the wrong
type. -/
def Def.eval (s : State) : Def → Option Val
  | .iconst n => some (.i32 (BitVec.ofInt 32 n))
  | .binary op x y =>
    match s.env x, s.env y with
    | some (.i32 x), some (.i32 y) => some (.i32 (op.apply x y))
    | some (.i64 x), some (.i64 y) => some (.i64 (op.apply x y))
    | _, _ => none
  | .icmp cc x y =>
    match s.env x, s.env y with
    | some (.i32 x), some (.i32 y) => some (flag (cc.holds x y))
    | some (.i64 x), some (.i64 y) => some (flag (cc.holds x y))
    | _, _ => none
  | .icmpImmS cc x imm =>
    match s.env x with
    | some (.i32 x) => some (flag (cc.holds x (BitVec.ofInt 32 imm)))
    | some (.i64 x) => some (flag (cc.holds x (BitVec.ofInt 64 imm)))
    | _ => none
  | .uextend ty x =>
    match ty, s.env x with
    | .i32, some (.i8 x) => some (.i32 (x.setWidth 32))
    | .i64, some (.i8 x) => some (.i64 (x.setWidth 64))
    | .i64, some (.i32 x) => some (.i64 (x.setWidth 64))
    | _, _ => none
  | .iaddImmS x imm =>
    match s.env x with
    | some (.i32 x) => some (.i32 (x + BitVec.ofInt 32 imm))
    | some (.i64 x) => some (.i64 (x + BitVec.ofInt 64 imm))
    | _ => none
  | .load addr =>
    match s.env addr with
    | some (.i64 addr) => some (.i32 (s.mem.load addr))
    | _ => none
  | .useVar var => s.vars var

namespace State

/-- On to the next instruction of the same block. -/
def next (s : State) : State := { s with index := s.index + 1 }

/-- A value is defined, and control goes on to the next instruction. -/
def define (s : State) (dst : Value) (v : Val) : State :=
  { s with env := Function.update s.env dst (some v), index := s.index + 1 }

/-- On to the first instruction of a block. -/
def goto (s : State) (dest : Block) : State := { s with block := dest, index := 0 }

end State

/-- Is a condition met? Any value but zero counts as true. -/
def Val.isTrue : Val → Bool
  | .i8 x => x != 0#8
  | .i32 x => x != 0#32
  | .i64 x => x != 0#64

/-- What an instruction does: it leads to a next state, or it ends the function. -/
def Inst.exec (s : State) : Inst → State ⊕ (Outcome × HostMem)
  | .define dst d =>
    match d.eval s with
    | some v => .inl (s.define dst v)
    | none => .inr (.stuck, s.mem)
  | .store x addr =>
    match s.env x, s.env addr with
    | some (.i32 x), some (.i64 addr) => .inl { s.next with mem := s.mem.store addr x }
    | _, _ => .inr (.stuck, s.mem)
  | .defVar var x =>
    match s.env x with
    | some v => .inl { s.next with vars := Function.update s.vars var (some v) }
    | none => .inr (.stuck, s.mem)
  | .jump dest => .inl (s.goto dest)
  | .brif c thenDest elseDest =>
    match s.env c with
    | some v => .inl (s.goto (if v.isTrue then thenDest else elseDest))
    | none => .inr (.stuck, s.mem)
  | .return_ x =>
    match s.env x with
    | some (.i32 x) => .inr (.returned x, s.mem)
    | _ => .inr (.stuck, s.mem)
  | .trap code => .inr (.trapped code, s.mem)

/-- One step: the instruction at hand is executed. A block that runs out without a jump is stuck.
-/
def Function.step (f : Function) (s : State) : State ⊕ (Outcome × HostMem) :=
  match (f.blocks s.block)[s.index]? with
  | some i => i.exec s
  | none => .inr (.stuck, s.mem)

/-- The state before the first instruction: the two parameters are the values 0 and 1, and no
variable is set. -/
def Function.start (f : Function) (p₀ p₁ : BitVec 64) (mem : HostMem) : State :=
  { block := f.entry
    index := 0
    env := Function.update (Function.update (fun _ => none) 0 (some (.i64 p₀))) 1 (some (.i64 p₁))
    vars := fun _ => none
    mem := mem }

/-- **The semantics of a call.** The function started with these parameters and this memory comes,
in finitely many steps, to this outcome. -/
def Function.Yields (f : Function) (p₀ p₁ : BitVec 64) (mem : HostMem) (outcome : Outcome)
    (mem' : HostMem) : Prop :=
  ∃ fuel, Lib.runFor f.step fuel (f.start p₀ p₁ mem) = some (outcome, mem')

/-! ## The builder

The part of cranelift's `FunctionBuilder` that is used. Numbers of values, blocks and variables
are handed out in order and never again, and instructions are appended where the builder is. -/

/-- A function under construction, with the counters for its blocks, values and variables. -/
structure Builder where
  blocks : Block → List Inst
  numBlocks : ℕ
  numValues : ℕ
  numVars : ℕ
  /-- the block that is being filled -/
  current : Block

namespace Builder

/-- The function of which nothing has been built yet. -/
def new : Builder := ⟨fun _ => [], 0, 0, 0, 0⟩

/-- A new block, which is empty and not yet switched to. -/
def createBlock (b : Builder) : Block × Builder :=
  (b.numBlocks, { b with numBlocks := b.numBlocks + 1 })

/-- Values for the parameters of the function, which are the first ones. -/
def appendBlockParams (b : Builder) (count : ℕ) : Builder :=
  { b with numValues := b.numValues + count }

/-- What is emitted next goes to the end of this block. -/
def switchToBlock (b : Builder) (block : Block) : Builder := { b with current := block }

/-- A new variable, numbered after those before it. -/
def declareVar (b : Builder) : Variable × Builder :=
  (b.numVars, { b with numVars := b.numVars + 1 })

/-- Append an instruction to the block that is being filled. -/
def emit (b : Builder) (i : Inst) : Builder :=
  { b with blocks := Function.update b.blocks b.current (b.blocks b.current ++ [i]) }

/-- Append an instruction that defines a value, and hand out that value. -/
def ins (b : Builder) (d : Def) : Value × Builder :=
  (b.numValues, { b.emit (.define b.numValues d) with numValues := b.numValues + 1 })

end Builder

end Wari.Clif
