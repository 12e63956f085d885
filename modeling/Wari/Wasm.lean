import Wari.Lib.Bytes

/-!
# WebAssembly

Modules as a parser hands them over, validation, and the meaning of a function that takes no
parameters. Every operator the translator knows is here with its rule and its meaning; the
rest are `other`, which may do to the stack what they like, because the translator refuses
them. What is left of the types of values is `i32`, so values are words of 32 bits.
-/

namespace Wari.Wasm

open Lib (readAt writeAt toLe ofLe)

/-! ## Modules

What matters to the translator. Operators with a body are nested here, and are flattened where the
parser's stream is meant. -/

/-- The types of values, those that the translator refuses among them. -/
inductive ValType where
  | i32
  | i64
  | f32
  | f64
  | v128
  /-- references, as they are printed -/
  | ref (debug : String)
  deriving DecidableEq, Repr

/-- How a type is printed in a message. -/
def ValType.debug : ValType → String
  | .i32 => "I32"
  | .i64 => "I64"
  | .f32 => "F32"
  | .f64 => "F64"
  | .v128 => "V128"
  | .ref debug => debug

/-- The types of functions: what they take, and what they leave. -/
structure FuncType where
  params : List ValType
  results : List ValType
  deriving DecidableEq, Repr

/-- The types of blocks, as the operator gives them. -/
inductive BlockType where
  | empty
  | type (ty : ValType)
  | funcType (index : ℕ)
  deriving DecidableEq, Repr

/-- How a block type is printed in a message. -/
def BlockType.debug : BlockType → String
  | .empty => "Empty"
  | .type ty => "Type(" ++ ty.debug ++ ")"
  | .funcType index => "FuncType(" ++ toString index ++ ")"

/-- What a block takes and leaves, if its type is there. -/
def BlockType.funcType? (types : List FuncType) : BlockType → Option FuncType
  | .empty => some ⟨[], []⟩
  | .type ty => some ⟨[], [ty]⟩
  | .funcType index => types[index]?

/-- Where a memory access goes, as the operator gives it. -/
structure MemArg where
  /-- exponent of the alignment it hints at -/
  align : ℕ
  offset : BitVec 64
  memory : ℕ
  deriving DecidableEq, Repr

/-- The operators of arithmetic, on words of 32 bits. -/
inductive BinOp where
  | add
  | sub
  | mul
  | and
  | or
  | xor
  | shl
  deriving DecidableEq, Repr

/-- The comparisons, signed and unsigned, on words of 32 bits. -/
inductive RelOp where
  | eq
  | ne
  | ltS
  | ltU
  | gtS
  | leS
  | geS
  deriving DecidableEq, Repr

/-- The operators without a body, as far as the translator supports them. -/
inductive Instr where
  | nop
  | i32Const (value : BitVec 32)
  | localGet (localIndex : ℕ)
  | localSet (localIndex : ℕ)
  | localTee (localIndex : ℕ)
  | drop
  | i32Bin (op : BinOp)
  | i32Rel (op : RelOp)
  | i32Eqz
  | i32Load (memarg : MemArg)
  | i32Store (memarg : MemArg)
  | br (relativeDepth : ℕ)
  | brIf (relativeDepth : ℕ)
  | return_
  | unreachable
  /-- any other, with what belongs to it -/
  | other (debug : String)
  deriving DecidableEq, Repr

/-- A sequence of instructions, with the bodies of blocks and loops nested in it. -/
inductive Code where
  | nil
  | instr (i : Instr) (next : Code)
  | block (blockty : BlockType) (body next : Code)
  | loop (blockty : BlockType) (body next : Code)
  deriving DecidableEq, Repr

/-- The stream of operators that a parser reads, in which blocks are opened and closed. -/
inductive Operator where
  | instr (i : Instr)
  | block (blockty : BlockType)
  | loop (blockty : BlockType)
  | end_
  deriving DecidableEq, Repr

/-- The operators of a sequence, with an `end` behind each body. -/
def Code.operators : Code → List Operator
  | .nil => []
  | .instr i next => .instr i :: next.operators
  | .block blockty body next => .block blockty :: (body.operators ++ .end_ :: next.operators)
  | .loop blockty body next => .loop blockty :: (body.operators ++ .end_ :: next.operators)

/-- A function: its type, its declarations of locals, and its body. -/
structure Func where
  type : FuncType
  locals : List (ℕ × ValType)
  body : Code
  deriving DecidableEq, Repr

/-- The operators of a body, with an `end` behind it. -/
def Func.operators (f : Func) : List Operator := f.body.operators ++ [.end_]

/-- What is imported or exported: a function, or something else. -/
inductive ExternalKind where
  | func
  | other
  deriving DecidableEq, Repr

/-- An export: a name, and what it stands for. -/
structure Export where
  name : String
  kind : ExternalKind
  index : ℕ
  deriving DecidableEq, Repr

/-- A module, as far as it matters here: imports by kind, and the number of memories,
imported ones included. -/
structure Module where
  types : List FuncType
  imports : List ExternalKind
  funcs : List Func
  exports : List Export
  memories : ℕ
  deriving DecidableEq, Repr

/-- How many functions are imported. They come first among the indices. -/
def Module.importedFuncs (m : Module) : ℕ := m.imports.countP (· == .func)

/-! ## Validation

Types of stacks. Validation is a relation, since code after a branch may have any type. -/

/-- What a body is validated against: the types around it, and what its labels expect. -/
structure Context where
  types : List FuncType
  locals : List ValType
  /-- what a branch to each label takes, innermost first -/
  labels : List (List ValType)
  /-- results of the function, top first -/
  results : List ValType
  memories : ℕ

/-- What an instruction takes from the stack and leaves there, top first. -/
inductive Instr.Typed (C : Context) : Instr → List ValType → List ValType → Prop where
  | nop : Typed C .nop [] []
  | i32Const (value : BitVec 32) : Typed C (.i32Const value) [] [.i32]
  | localGet {x : ℕ} {ty : ValType} (h : C.locals[x]? = some ty) : Typed C (.localGet x) [] [ty]
  | localSet {x : ℕ} {ty : ValType} (h : C.locals[x]? = some ty) : Typed C (.localSet x) [ty] []
  | localTee {x : ℕ} {ty : ValType} (h : C.locals[x]? = some ty) : Typed C (.localTee x) [ty] [ty]
  | drop (ty : ValType) : Typed C .drop [ty] []
  | i32Bin (op : BinOp) : Typed C (.i32Bin op) [.i32, .i32] [.i32]
  | i32Rel (op : RelOp) : Typed C (.i32Rel op) [.i32, .i32] [.i32]
  | i32Eqz : Typed C .i32Eqz [.i32] [.i32]
  | i32Load {memarg : MemArg} (halign : memarg.align ≤ 2) (hoffset : memarg.offset.toNat < 2 ^ 32)
      (hmemory : memarg.memory < C.memories) : Typed C (.i32Load memarg) [.i32] [.i32]
  | i32Store {memarg : MemArg} (halign : memarg.align ≤ 2) (hoffset : memarg.offset.toNat < 2 ^ 32)
      (hmemory : memarg.memory < C.memories) : Typed C (.i32Store memarg) [.i32, .i32] []
  /-- what is left after a jump may be anything -/
  | br {l : ℕ} {tys : List ValType} (h : C.labels[l]? = some tys) (below after : List ValType) :
      Typed C (.br l) (tys ++ below) after
  | brIf {l : ℕ} {tys : List ValType} (h : C.labels[l]? = some tys) :
      Typed C (.brIf l) (.i32 :: tys) tys
  | return_ (below after : List ValType) : Typed C .return_ (C.results ++ below) after
  | unreachable (before after : List ValType) : Typed C .unreachable before after
  /-- rules of their own, which do not matter here -/
  | other (debug : String) (before after : List ValType) : Typed C (.other debug) before after

/-- A sequence turns a stack of one kind into one of another. Types of blocks name the top
last. -/
inductive Code.Typed : Context → Code → List ValType → List ValType → Prop where
  | nil (C : Context) (tys : List ValType) : Typed C .nil tys tys
  | instr {C : Context} {i : Instr} {next : Code} {before after tys : List ValType}
      (rest : List ValType) (hi : i.Typed C before after)
      (hnext : Typed C next (after ++ rest) tys) : Typed C (.instr i next) (before ++ rest) tys
  | block {C : Context} {blockty : BlockType} {body next : Code} {tys : List ValType}
      (ty : FuncType) (rest : List ValType) (hty : blockty.funcType? C.types = some ty)
      (hbody : Typed { C with labels := ty.results.reverse :: C.labels } body ty.params.reverse
        ty.results.reverse)
      (hnext : Typed C next (ty.results.reverse ++ rest) tys) :
      Typed C (.block blockty body next) (ty.params.reverse ++ rest) tys
  | loop {C : Context} {blockty : BlockType} {body next : Code} {tys : List ValType}
      (ty : FuncType) (rest : List ValType) (hty : blockty.funcType? C.types = some ty)
      (hbody : Typed { C with labels := ty.params.reverse :: C.labels } body ty.params.reverse
        ty.results.reverse)
      (hnext : Typed C next (ty.results.reverse ++ rest) tys) :
      Typed C (.loop blockty body next) (ty.params.reverse ++ rest) tys

/-- The types of all locals, the parameters first. -/
def Func.localTypes (f : Func) : List ValType :=
  f.type.params ++ f.locals.flatMap fun decl => List.replicate decl.1 decl.2

/-- A function is valid in its module: its body is typed from the empty stack to its results. -/
def Func.Valid (m : Module) (f : Func) : Prop :=
  f.body.Typed ⟨m.types, f.localTypes, [f.type.results.reverse], f.type.results.reverse,
    m.memories⟩ [] f.type.results.reverse

/-- A module is valid: so are its functions, and exports have names of their own, for
something there is. -/
structure Module.Valid (m : Module) : Prop where
  funcs : ∀ f ∈ m.funcs, f.Valid m
  names : (m.exports.map Export.name).Nodup
  exports : ∀ e ∈ m.exports, e.kind = .func → e.index < m.importedFuncs + m.funcs.length

/-! ## Execution

A sequence returns, traps or branches. Loops have fuel, which a semantics without it is told by.
-/

/-- What a function works on: the top of the stack comes first, and memory is memory 0. -/
structure State where
  locals : List (BitVec 32)
  stack : List (BitVec 32)
  memory : List (BitVec 8)
  deriving DecidableEq, Repr

/-- Why a function traps, of those reasons that the supported operators have. -/
inductive Trap where
  | memoryOutOfBounds
  | unreachable
  deriving DecidableEq, Repr

/-- How a sequence ends, and in which state. -/
inductive Result where
  | normal (s : State)
  | branch (depth : ℕ) (s : State)
  | returned (s : State)
  | trapped (trap : Trap) (memory : List (BitVec 8))
  /-- a state that validation rules out -/
  | invalid
  /-- a loop went around as often as there was fuel -/
  | exhausted
  deriving DecidableEq, Repr

/-- Arithmetic is modulo 2³²; shifts are by a count modulo 32. -/
def BinOp.eval : BinOp → BitVec 32 → BitVec 32 → BitVec 32
  | .add, x, y => x + y
  | .sub, x, y => x - y
  | .mul, x, y => x * y
  | .and, x, y => x &&& y
  | .or, x, y => x ||| y
  | .xor, x, y => x ^^^ y
  | .shl, x, y => x <<< (y.toNat % 32)

/-- When a comparison holds of two words, read as signed or as unsigned. -/
def RelOp.eval : RelOp → BitVec 32 → BitVec 32 → Bool
  | .eq, x, y => x == y
  | .ne, x, y => x != y
  | .ltS, x, y => x.slt y
  | .ltU, x, y => x.ult y
  | .gtS, x, y => y.slt x
  | .leS, x, y => x.sle y
  | .geS, x, y => y.sle x

/-- A truth value on the stack, which is 1 or 0. -/
def ofBool (b : Bool) : BitVec 32 := if b then 1#32 else 0#32

namespace State

/-- Push a value onto the stack. -/
def push (s : State) (v : BitVec 32) : State := { s with stack := v :: s.stack }

/-- Set a local, and leave the others. -/
def setLocal (s : State) (x : ℕ) (v : BitVec 32) : State :=
  { s with locals := s.locals.set x v }

end State

/-- What an instruction does: it leads to a state, branches, returns or traps. -/
def Instr.exec (s : State) : Instr → Result
  | .nop => .normal s
  | .i32Const value => .normal (s.push value)
  | .localGet x =>
    match s.locals[x]? with
    | some v => .normal (s.push v)
    | none => .invalid
  | .localSet x =>
    match s.stack with
    | v :: stack =>
      if x < s.locals.length then .normal ({ s with stack := stack }.setLocal x v) else .invalid
    | [] => .invalid
  | .localTee x =>
    match s.stack with
    | v :: _ => if x < s.locals.length then .normal (s.setLocal x v) else .invalid
    | [] => .invalid
  | .drop =>
    match s.stack with
    | _ :: stack => .normal { s with stack := stack }
    | [] => .invalid
  | .i32Bin op =>
    match s.stack with
    | rhs :: lhs :: stack => .normal ({ s with stack := stack }.push (op.eval lhs rhs))
    | _ => .invalid
  | .i32Rel op =>
    match s.stack with
    | rhs :: lhs :: stack => .normal ({ s with stack := stack }.push (ofBool (op.eval lhs rhs)))
    | _ => .invalid
  | .i32Eqz =>
    match s.stack with
    | v :: stack => .normal ({ s with stack := stack }.push (ofBool (v == 0#32)))
    | [] => .invalid
  | .i32Load memarg =>
    match s.stack with
    | a :: stack =>
      if memarg.memory ≠ 0 then .invalid
      else
        match readAt s.memory (a.toNat + memarg.offset.toNat) 4 with
        | some bs => .normal ({ s with stack := stack }.push (BitVec.ofNat 32 (ofLe bs)))
        | none => .trapped .memoryOutOfBounds s.memory
    | [] => .invalid
  | .i32Store memarg =>
    match s.stack with
    | v :: a :: stack =>
      if memarg.memory ≠ 0 then .invalid
      else
        match writeAt s.memory (a.toNat + memarg.offset.toNat) (toLe 4 v.toNat) with
        | some memory => .normal { s with stack := stack, memory := memory }
        | none => .trapped .memoryOutOfBounds s.memory
    | _ => .invalid
  | .br l => .branch l s
  | .brIf l =>
    match s.stack with
    | c :: stack =>
      if c = 0#32 then .normal { s with stack := stack } else .branch l { s with stack := stack }
    | [] => .invalid
  | .return_ => .returned s
  | .unreachable => .trapped .unreachable s.memory
  | .other _ => .invalid

/-- The end of a block, with the rest of the stack back below. -/
def endBlock (arity : ℕ) (rest : List (BitVec 32)) : Result → Result
  | .normal s => .normal { s with stack := s.stack ++ rest }
  | .branch 0 s => .normal { s with stack := s.stack.take arity ++ rest }
  | .branch (l + 1) s => .branch l s
  | r => r

/-- A loop goes around as long as its body branches to it. -/
def goAround (run : State → Result) (arity : ℕ) (rest : List (BitVec 32)) : ℕ → State → Result
  | 0, _ => .exhausted
  | fuel + 1, s =>
    match run s with
    | .normal s => .normal { s with stack := s.stack ++ rest }
    | .branch 0 s => goAround run arity rest fuel { s with stack := s.stack.take arity }
    | .branch (l + 1) s => .branch l s
    | r => r

/-- What comes after, if the sequence before it ended normally. -/
def Result.andThen (r : Result) (next : State → Result) : Result :=
  match r with
  | .normal s => next s
  | r => r

/-- What a sequence does, every loop going around less than `fuel` times in a row. -/
def Code.exec (types : List FuncType) (fuel : ℕ) : Code → State → Result
  | .nil, s => .normal s
  | .instr i next, s => (i.exec s).andThen fun s => next.exec types fuel s
  | .block blockty body next, s =>
    match blockty.funcType? types with
    | none => .invalid
    | some ty =>
      let run := body.exec types fuel { s with stack := s.stack.take ty.params.length }
      (endBlock ty.results.length (s.stack.drop ty.params.length) run).andThen fun s =>
        next.exec types fuel s
  | .loop blockty body next, s =>
    match blockty.funcType? types with
    | none => .invalid
    | some ty =>
      let run := goAround (fun s => body.exec types fuel s) ty.params.length
        (s.stack.drop ty.params.length) fuel { s with stack := s.stack.take ty.params.length }
      run.andThen fun s => next.exec types fuel s

/-- How a call ends: with a value, or with a trap. -/
inductive Outcome where
  | value (v : BitVec 32)
  | trap (trap : Trap)
  deriving DecidableEq, Repr

/-- The outcome of a function with one result, and the memory it leaves. A branch out of all
blocks returns. -/
def Result.outcome? : Result → Option (Outcome × List (BitVec 8))
  | .normal s | .branch 0 s | .returned s =>
    match s.stack with
    | v :: _ => some (.value v, s.memory)
    | [] => none
  | .trapped trap memory => some (.trap trap, memory)
  | _ => none

/-- The state at the start of a call: all locals are zero, and the stack is empty. -/
def Func.start (f : Func) (memory : List (BitVec 8)) : State :=
  ⟨List.replicate f.localTypes.length 0#32, [], memory⟩

/-- The function a name is exported for, unless it is imported. -/
def Module.exported? (m : Module) (name : String) : Option Func :=
  match m.exports.find? fun e => e.name == name && e.kind == .func with
  | none => none
  | some e => if e.index < m.importedFuncs then none else m.funcs[e.index - m.importedFuncs]?

/-- **The semantics of a call** of an exported function without parameters. -/
def Module.Yields (m : Module) (name : String) (memory : List (BitVec 8)) (outcome : Outcome)
    (memory' : List (BitVec 8)) : Prop :=
  ∃ f fuel, m.exported? name = some f ∧
    (f.body.exec m.types fuel (f.start memory)).outcome? = some (outcome, memory')

end Wari.Wasm
