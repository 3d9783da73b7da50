import SmallLisp.Compile.Context
import SmallLisp.Compile.Split

/-!
# Compiling function bodies

Each expression is compiled into instructions that leave its value in a register chosen by its
surroundings. Parameters are kept in stack slots. Control flow inside an expression moves the
builder to another block, so what follows continues there.

A definition inside a body becomes a function of its own: it sees the names of the top level and
of the definitions around it, and its own, but no variables. The rest of the surrounding body can
call it.
-/
namespace SmallLisp
open IR (Reg BlockId Operand Instr)

structure LowerState where
  context : Context
  builder : IR.Builder
  scope : Scope Storage

abbrev LowerM := EStateM CompileError LowerState

/-- Code that leaves a value in a given register. -/
abbrev Lowering := Reg → LowerM Unit

namespace LowerM

def freshReg : LowerM Reg := modifyGet fun s =>
  let (r, b) := s.builder.freshReg
  (r, { s with builder := b })

def freshLabel : LowerM Nat := modifyGet fun s =>
  let (n, b) := s.builder.freshLabel
  (n, { s with builder := b })

def newBlock (label : String) : LowerM BlockId := modifyGet fun s =>
  let (id, b) := s.builder.newBlock label
  (id, { s with builder := b })

def currentBlock : LowerM BlockId := return (← get).builder.current

/-- A step of the builder, whose misuse would be a bug of the compiler. -/
def build (step : IR.Builder → Except IR.Misuse IR.Builder) : LowerM Unit := do
  let s ← get
  match step s.builder with
  | .ok b => set { s with builder := b }
  | .error m => throw (.internal (.misuse m))

def emit (i : Instr) : LowerM Unit := build (·.emit i)

def position (id : BlockId) : LowerM Unit := build (·.position id)

def terminate (t : IR.Terminator) : LowerM Unit := build (·.terminate t)

def define (name : String) (storage : Storage) : LowerM Unit :=
  modify fun s => { s with scope := s.scope.define name storage }

def inContext {α : Type} (step : ContextM α) : LowerM α := fun s =>
  match step s.context with
  | .ok a cx => .ok a { s with context := cx }
  | .error e cx => .error e { s with context := cx }

end LowerM

open LowerM

/-- Compiles a body as a function of its own, with the names of `root`, and adds it to the module. -/
def inFunction (name : String) (params : List String) (root : Scope Storage) (body : LowerM Unit) :
    ContextM Unit := fun cx =>
  match body ⟨cx, .new name params, root.push⟩ with
  | .error e s => .error e s.context
  | .ok _ s =>
    match s.builder.finish with
    | .error cause => .error (.internal (.unfinished cause)) s.context
    | .ok f => .ok () (s.context.addFunction f)

def ArithOp.instruction : ArithOp → IR.BinOp
  | add => .add
  | sub => .sub
  | mul => .mul
  | div => .sdiv
  | rem => .srem

def CompareOp.pred : CompareOp → IR.Pred
  | lt => .slt
  | gt => .sgt
  | eq => .eq

namespace Lower

def constant (value : Int64) : Lowering := fun target =>
  emit (.binary target .add (.const value) (.const 0))

def load (name : String) (span : Span) : Lowering := fun target => do
  match (← get).scope.lookup? name with
  | some (.slot ptr) => emit (.load target ptr)
  | some .function => throw (.typeMismatch .integer .function span)
  | none => throw (.unboundName name span)

/-- The address of a new slot that holds a value. -/
def spill (value : Lowering) : Lowering := fun target => do
  let r ← freshReg
  value r
  emit (.alloca target)
  emit (.store (.reg r) target)

def parameter (name : String) : LowerM Unit := do
  let slot ← freshReg
  emit (.alloca slot)
  emit (.store (.arg name) slot)
  define name (.slot slot)

/-- A tree of binary operations. Both registers of an operation come before those of its operands. -/
def tree : Split Lowering → Lowering
  | .leaf operand => operand
  | .node op left right => fun target => do
    let lhs ← freshReg
    let rhs ← freshReg
    tree left lhs
    tree right rhs
    emit (.binary target op.instruction (.reg lhs) (.reg rhs))

def arithmetic (op : ArithOp) (head : String) (span : Span) (args : List Lowering) : Lowering :=
  match Split.ofList? op args with
  | none => fun _ => throw (.wrongArity head (.atLeast 1) 0 span)
  | some t => tree t

def comparison (op : CompareOp) (head : String) (span : Span) (args : List Lowering) : Lowering :=
  fun target =>
    match args with
    | [left, right] => do
      let lhs ← freshReg
      let rhs ← freshReg
      left lhs
      right rhs
      emit (.icmp target op.pred (.reg lhs) (.reg rhs))
    | _ => throw (.wrongArity head (.exactly 2) args.length span)

def comparisonValue (op : CompareOp) (head : String) (span : Span) (args : List Lowering) : Lowering :=
  fun target => do
    let flag ← freshReg
    comparison op head span args flag
    emit (.zext target flag)

/-- Values in fresh registers, from left to right. -/
def operands : List Lowering → LowerM (List Operand)
  | [] => return []
  | arg :: args => do
    let r ← freshReg
    arg r
    return .reg r :: (← operands args)

def userCall (head : String) (span : Span) (args : List Lowering) : Lowering := fun target => do
  let s ← get
  match s.scope.lookup? head with
  | some (.slot _) => throw (.typeMismatch .function .integer span)
  | none => throw (.undefinedFunction head span)
  | some .function =>
    match s.context.signature? head with
    | none => throw (.undefinedFunction head span)
    | some sig =>
      if sig.arity = args.length then
        let values ← operands args
        emit (.call target head values)
      else throw (.wrongArity head (.exactly sig.arity) args.length span)

/-- A choice between two values. Without a second value the choice is zero. The phi names the blocks
that the branches end in. -/
def choice (test yes : Lowering) (no : Option Lowering) : Lowering := fun target => do
  let flag ← freshReg
  test flag
  let n ← freshLabel
  let yesBlock ← newBlock ("if.then." ++ toString n)
  let noBlock ← match no with
    | some _ => some <$> newBlock ("if.else." ++ toString n)
    | none => pure none
  let endBlock ← newBlock ("if.end." ++ toString n)
  let testExit ← currentBlock
  terminate (.condBr flag yesBlock (noBlock.getD endBlock))
  position yesBlock
  let yesValue ← freshReg
  yes yesValue
  let yesExit ← currentBlock
  terminate (.br endBlock)
  let otherwise ← match no, noBlock with
    | some value, some block => do
      position block
      let noValue ← freshReg
      value noValue
      let noExit ← currentBlock
      terminate (.br endBlock)
      pure (Operand.reg noValue, noExit)
    | _, _ => pure (Operand.const 0, testExit)
  position endBlock
  emit (.phi target [(.reg yesValue, yesExit), otherwise])

def conditional (head : String) (span : Span) (args : List Lowering) (yes : Lowering)
    (no : Option Lowering) : Lowering :=
  match Builtin.ofHead? head with
  | some (.compare op) => choice (comparison op head span args) yes no
  | _ => fun _ => throw (.typeMismatch .comparison .plainCall span)

/-- A write: zero where the kernel wrote all bytes, and otherwise what it answered. -/
def write (fd buffer length : Lowering) : Lowering := fun target => do
  let fdReg ← freshReg
  let bufferReg ← freshReg
  let lengthReg ← freshReg
  fd fdReg
  buffer bufferReg
  length lengthReg
  let address ← freshReg
  emit (.ptrToInt address bufferReg)
  let abi := (← get).context.abi
  let status ← freshReg
  emit (.asm status abi.template abi.constraints
    [.const abi.writeNumber, .reg fdReg, .reg address, .reg lengthReg])
  let complete ← freshReg
  emit (.icmp complete .eq (.reg status) (.reg lengthReg))
  let n ← freshLabel
  let okBlock ← newBlock ("sys.ok." ++ toString n)
  let failBlock ← newBlock ("sys.fail." ++ toString n)
  let endBlock ← newBlock ("sys.end." ++ toString n)
  terminate (.condBr complete okBlock failBlock)
  position okBlock
  terminate (.br endBlock)
  position failBlock
  terminate (.br endBlock)
  position endBlock
  emit (.phi target [(.const 0, okBlock), (.reg status, failBlock)])

end Lower

mutual

/-- Compiles an expression; `root` holds the names that definitions in it can see. -/
def Expr.lower : Expr → Scope Storage → Lowering
  | .int value _, _ => Lower.constant value
  | .name x span, _ => Lower.load x span
  | .ref _ span, _ => fun _ => throw (.typeMismatch .integer .reference span)
  | .call c _, root => c.lower root
  | .define d _, root => fun target => do
    inContext (declare d)
    define d.name .function
    inContext (d.lower (root.push.define d.name .function))
    Lower.constant 0 target
  | .branch ⟨head, args, span⟩ yes no _, root =>
    Lower.conditional head span (lowerEach args root) (yes.lower root)
      (match no with
        | some e => some (e.lower root)
        | none => none)

def Call.lower : Call → Scope Storage → Lowering
  | ⟨head, args, span⟩, root =>
    match Builtin.ofHead? head with
    | some (.arith op) => Lower.arithmetic op head span (lowerEach args root)
    | some (.compare op) => Lower.comparisonValue op head span (lowerEach args root)
    | some .sysWrite =>
      match args with
      | [fd, .ref value _, length] =>
        Lower.write (fd.lower root) (Lower.spill (value.lower root)) (length.lower root)
      | [_, other, _] => fun _ => throw (.typeMismatch .reference other.category other.span)
      | _ => fun _ => throw (.wrongArity head (.exactly 3) args.length span)
    | none => Lower.userCall head span (lowerEach args root)

def Definition.lower : Definition → Scope Storage → ContextM Unit
  | ⟨name, params, body, _⟩, root => inFunction name params root do
    params.forM Lower.parameter
    let result ← freshReg
    lowerBody name body root result
    terminate (.ret (.reg result))

def lowerBody (function : String) : List Expr → Scope Storage → Lowering
  | [], _ => fun _ => throw (.internal (.emptyBody function))
  | e :: es, root => fun target =>
    match es with
    | [] => e.lower root target
    | _ :: _ => do
      let r ← freshReg
      e.lower root r
      lowerBody function es root target

def lowerEach : List Expr → Scope Storage → List Lowering
  | [], _ => []
  | e :: es, root => e.lower root :: lowerEach es root

end

def compile (abi : IR.Abi) (moduleName : String) (program : List Expr) :
    Except CompileError IR.Module :=
  let step : ContextM Unit := do
    let (root, defs) ← declareProgram program
    defs.forM (·.lower root)
  match step (.new moduleName abi) with
  | .ok _ cx => .ok cx.module
  | .error e _ => .error e

end SmallLisp
