import Wari.Wasm
import Wari.Clif

/-!
# From WebAssembly to Cranelift

The translator of the AOT compiler: one pass over the operators of `_start`, with the values
on the stack and the enclosing blocks known at compile time. Blocks are sealed as soon as all
their predecessors are known, which is for the builder to know and changes nothing here.
-/

namespace Wari.Aot

open Clif (Value Block Variable Builder Def IntCC BinaryOp TrapCode Function)
open Wasm (Operator Instr BlockType BinOp RelOp ValType)

/-- Trap code of an access out of bounds. -/
def trapOob : TrapCode := .heapOutOfBounds

/-- The trap code of `unreachable`. -/
def trapUnreachable : TrapCode := .user 1

/-- A `loop` or `block` around what is being translated. -/
structure Frame where
  /-- where a branch goes -/
  branchTarget : Block
  /-- where control lands after the end -/
  exit : Block
  isLoop : Bool

/-- What the translator knows: stack and frames, the innermost first. -/
structure Translator where
  b : Builder
  memBase : Value
  memLen : Value
  locals : List Variable
  stack : List Value
  control : List Frame

/-! ## Finding the body

The export is looked up by its name. Imported functions have no body and come first among the
indices. -/

/-- The index `_start` is exported with: that of the last such export. -/
def startFunc (found : Option ℕ) : List Wasm.Export → Except String (Option ℕ)
  | [] => .ok found
  | e :: exports =>
    if e.name = "_start" then
      if e.kind ≠ .func then .error "_start export is not a function"
      else startFunc (some e.index) exports
    else startFunc found exports

/-- The body of the `_start` export. An imported function has none. -/
def findStartBody (m : Wasm.Module) : Except String Wasm.Func :=
  match startFunc none m.exports with
  | .error e => .error e
  | .ok none => .error "module has no \x60_start\x60 export"
  | .ok (some idx) =>
    if idx < m.importedFuncs then .error "_start resolves to an imported function"
    else
      let bodyIdx := idx - m.importedFuncs
      match m.funcs[bodyIdx]? with
      | some f => .ok f
      | none => .error ("no code-section body at index " ++ toString bodyIdx)

/-! ## Operators

The stack of values is known at compile time, so that an operator takes the names of values from
it and puts one back. -/

/-- The top of the stack, and the rest. -/
def pop (stack : List Value) (message : String) : Except String (Value × List Value) :=
  match stack with
  | v :: stack => .ok (v, stack)
  | [] => .error message

/-- Only block types without parameters and results are translated; the others are refused. -/
def requireEmptyBlockty (bt : BlockType) : Except String Unit :=
  match bt with
  | .empty => .ok ()
  | other => .error ("spike supports only empty block types, found " ++ other.debug)

/-- The block that a branch of this depth goes to. A branch out of the function is refused. -/
def frameAt (control : List Frame) (depth : ℕ) : Except String Block :=
  match control[depth]? with
  | some frame => .ok frame.branchTarget
  | none => .error ("branch depth " ++ toString depth ++ " escapes the function")

/-- The instruction for an operator of arithmetic. -/
def binaryOp : BinOp → BinaryOp
  | .add => .iadd
  | .sub => .isub
  | .mul => .imul
  | .and => .band
  | .or => .bor
  | .xor => .bxor
  | .shl => .ishl

/-- The condition for a comparison, in the order of the operands. -/
def intCC : RelOp → IntCC
  | .eq => .equal
  | .ne => .notEqual
  | .ltS => .signedLessThan
  | .ltU => .unsignedLessThan
  | .gtS => .signedGreaterThan
  | .leS => .signedLessThanOrEqual
  | .geS => .signedGreaterThanOrEqual

namespace Translator

/-- Emit an instruction, and push the value it defines. -/
def pushIns (t : Translator) (d : Def) : Translator :=
  let (v, b) := t.b.ins d
  { t with b := b, stack := v :: t.stack }

/-- Into a loop: branches to it go back to its header. -/
def enterLoop (t : Translator) : Translator :=
  let (header, b) := t.b.createBlock
  let (exit, b) := b.createBlock
  let b := (b.emit (.jump header)).switchToBlock header
  { t with b := b, control := ⟨header, exit, true⟩ :: t.control }

/-- Into a block: branches to it go to its end. -/
def enterBlock (t : Translator) : Translator :=
  let (exit, b) := t.b.createBlock
  { t with b := b, control := ⟨exit, exit, false⟩ :: t.control }

/-- Out of a frame: on to its end block, which is filled from there. -/
def leave (t : Translator) (frame : Frame) (control : List Frame) : Translator :=
  { t with b := (t.b.emit (.jump frame.exit)).switchToBlock frame.exit, control := control }

/-- What follows cannot be reached, and goes into a block of its own. -/
def deadBlock (t : Translator) : Translator :=
  let (dead, b) := t.b.createBlock
  { t with b := b.switchToBlock dead }

end Translator

/-- The bounds check of an access, and the host address of what is accessed. -/
def boundsCheck (b : Builder) (idxI32 : Value) (staticOffset : BitVec 64) (width : ℤ)
    (memBase memLen : Value) : Except String (Value × Builder) :=
  if 2 ^ 63 ≤ staticOffset.toNat then .error "memarg offset too large"
  else
    let off : ℤ := staticOffset.toNat
    let (idx64, b) := b.ins (.uextend .i64 idxI32)
    let (start, b) := b.ins (.iaddImmS idx64 off)
    let (endAddr, b) := b.ins (.iaddImmS start width)
    let (oob, b) := b.ins (.icmp .unsignedGreaterThan endAddr memLen)
    let (trapBlock, b) := b.createBlock
    let (okBlock, b) := b.createBlock
    let b := b.emit (.brif oob trapBlock okBlock)
    let b := (b.switchToBlock trapBlock).emit (.trap trapOob)
    .ok ((b.switchToBlock okBlock).ins (.binary .iadd memBase start))

/-- The variable of a local, or an error that names the operator and the index. -/
def localVar (t : Translator) (what : String) (localIndex : ℕ) : Except String Variable :=
  match t.locals[localIndex]? with
  | some var => .ok var
  | none => .error (what ++ " " ++ toString localIndex ++ " out of range")

/-- An operator without a body: it takes its operands off the stack of values and puts its result
there. -/
def translateInstr (t : Translator) : Instr → Except String Translator
  | .nop => .ok t
  | .i32Const value => .ok (t.pushIns (.iconst value.toInt))
  | .localGet localIndex => do
    let var ← localVar t "local.get" localIndex
    .ok (t.pushIns (.useVar var))
  | .localSet localIndex => do
    let var ← localVar t "local.set" localIndex
    let (v, stack) ← pop t.stack "value stack underflow at local.set"
    .ok { t with b := t.b.emit (.defVar var v), stack := stack }
  | .localTee localIndex => do
    let var ← localVar t "local.set" localIndex
    let (v, stack) ← pop t.stack "value stack underflow at local.set"
    .ok { t with b := t.b.emit (.defVar var v), stack := v :: stack }
  | .drop => do
    let (_, stack) ← pop t.stack "value stack underflow at drop"
    .ok { t with stack := stack }
  | .i32Bin op => do
    let (rhs, stack) ← pop t.stack "value stack underflow"
    let (lhs, stack) ← pop stack "value stack underflow"
    .ok ({ t with stack := stack }.pushIns (.binary (binaryOp op) lhs rhs))
  | .i32Rel op => do
    let (rhs, stack) ← pop t.stack "value stack underflow"
    let (lhs, stack) ← pop stack "value stack underflow"
    let (c, b) := t.b.ins (.icmp (intCC op) lhs rhs)
    .ok ({ t with b := b, stack := stack }.pushIns (.uextend .i32 c))
  | .i32Eqz => do
    let (v, stack) ← pop t.stack "value stack underflow"
    let (c, b) := t.b.ins (.icmpImmS .equal v 0)
    .ok ({ t with b := b, stack := stack }.pushIns (.uextend .i32 c))
  | .i32Load memarg => do
    let (idx, stack) ← pop t.stack "value stack underflow at i32.load"
    let (addr, b) ← boundsCheck t.b idx memarg.offset 4 t.memBase t.memLen
    .ok ({ t with b := b, stack := stack }.pushIns (.load addr))
  | .i32Store memarg => do
    let (val, stack) ← pop t.stack "value stack underflow at i32.store"
    let (idx, stack) ← pop stack "value stack underflow at i32.store"
    let (addr, b) ← boundsCheck t.b idx memarg.offset 4 t.memBase t.memLen
    .ok { t with b := b.emit (.store val addr), stack := stack }
  | .br relativeDepth => do
    let target ← frameAt t.control relativeDepth
    .ok { t with b := t.b.emit (.jump target) }.deadBlock
  | .brIf relativeDepth => do
    let target ← frameAt t.control relativeDepth
    let (cond, stack) ← pop t.stack "value stack underflow at br_if"
    let (cont, b) := t.b.createBlock
    .ok { t with b := (b.emit (.brif cond target cont)).switchToBlock cont, stack := stack }
  | .return_ => do
    let (v, stack) ← pop t.stack "value stack underflow at return"
    .ok { t with b := t.b.emit (.return_ v), stack := stack }.deadBlock
  | .unreachable => .ok { t with b := t.b.emit (.trap trapUnreachable) }.deadBlock
  | .other debug => .error ("spike does not support operator " ++ debug)

/-- An operator: one without a body, or the beginning or the end of one. -/
def translateOp (t : Translator) : Operator → Except String Translator
  | .instr i => translateInstr t i
  | .loop blockty => do
    requireEmptyBlockty blockty
    if t.stack ≠ [] then .error "spike requires an empty value stack at \x60loop\x60"
    else .ok t.enterLoop
  | .block blockty => do
    requireEmptyBlockty blockty
    if t.stack ≠ [] then .error "spike requires an empty value stack at \x60block\x60"
    else .ok t.enterBlock
  | .end_ =>
    match t.control with
    | frame :: control => .ok (t.leave frame control)
    | [] => do
      let (v, stack) ← pop t.stack "\x60_start\x60 produced no result value"
      .ok { t with b := t.b.emit (.return_ v), stack := stack }

/-- Operators, one after another, until one is refused. -/
def translateOps (t : Translator) (ops : List Operator) : Except String Translator :=
  ops.foldlM translateOp t

/-! ## Functions

Locals become variables that are set to zero, and then the operators follow in one pass. -/

/-- A local: a variable, and the instructions that set it to zero. -/
def declareLocal (t : Translator) : Translator :=
  let (v, b) := t.b.declareVar
  let (z, b) := b.ins (.iconst 0)
  { t with b := b.emit (.defVar v z), locals := t.locals ++ [v] }

/-- Declarations of locals, each for a number of them. Only one type is supported. -/
def declareLocals (t : Translator) : List (ℕ × ValType) → Except String Translator
  | [] => .ok t
  | (count, ty) :: decls =>
    if ty ≠ .i32 then .error ("spike supports i32 locals only, found " ++ ty.debug)
    else declareLocals (declareLocal^[count] t) decls

/-- Before the locals: the entry block, with the base and the length of the memory. -/
def entryTranslator : Translator :=
  let (entry, b) := Builder.new.createBlock
  let b := (b.appendBlockParams 2).switchToBlock entry
  { b := b, memBase := 0, memLen := 1, locals := [], stack := [], control := [] }

/-- **Translate** the `_start` export: its locals first, then its operators in one pass. -/
def translate (m : Wasm.Module) : Except String Function := do
  let body ← findStartBody m
  let t ← declareLocals entryTranslator body.locals
  let t ← translateOps t body.operators
  .ok ⟨0, t.b.blocks⟩

end Wari.Aot
