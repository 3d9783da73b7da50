/-!
# The intermediate representation

A small part of LLVM's language in static single assignment form: every value is a 64-bit integer,
except results of comparisons (one bit) and stack slots (pointers). A function lists its blocks in
layout order, which is the order they are printed in; the first is the entry.

Registers and blocks are numbered by natural numbers; a function is taken to have fewer than 2^32 of
either.
-/
namespace SmallLisp.IR

structure Reg where
  index : Nat
deriving DecidableEq, Inhabited

structure BlockId where
  index : Nat
deriving DecidableEq, Inhabited

inductive Operand where
  | reg (r : Reg)
  | const (value : Int64)
  /-- The value passed for a parameter. -/
  | arg (param : String)
deriving DecidableEq

def Operand.reg? : Operand → Option Reg
  | reg r => some r
  | const _ | arg _ => none

inductive BinOp where
  | add | sub | mul | sdiv | srem
deriving DecidableEq

inductive Pred where
  | slt | sgt | eq
deriving DecidableEq

inductive Instr where
  | binary (dst : Reg) (op : BinOp) (lhs rhs : Operand)
  | icmp (dst : Reg) (pred : Pred) (lhs rhs : Operand)
  /-- Widens a comparison's result to an integer. -/
  | zext (dst src : Reg)
  /-- Makes a new stack slot. -/
  | alloca (dst : Reg)
  | store (value : Operand) (ptr : Reg)
  | load (dst ptr : Reg)
  | ptrToInt (dst ptr : Reg)
  | call (dst : Reg) (callee : String) (args : List Operand)
  | asm (dst : Reg) (template constraints : String) (args : List Operand)
  /-- Chooses by the block that control came from. -/
  | phi (dst : Reg) (incoming : List (Operand × BlockId))
deriving DecidableEq

namespace Instr

def dst? : Instr → Option Reg
  | binary d .. | icmp d .. | zext d _ | alloca d | load d _ | ptrToInt d _ | call d .. | asm d ..
  | phi d _ => some d
  | store .. => none

def operands : Instr → List Operand
  | binary _ _ l r | icmp _ _ l r => [l, r]
  | store v _ => [v]
  | call _ _ args | asm _ _ _ args => args
  | phi _ incoming => incoming.map (·.1)
  | zext .. | alloca _ | load .. | ptrToInt .. => []

/-- The register read besides the operands: a source bit or a pointer. -/
def place? : Instr → Option Reg
  | zext _ src => some src
  | store _ ptr | load _ ptr | ptrToInt _ ptr => some ptr
  | _ => none

def uses (i : Instr) : List Reg := i.operands.filterMap Operand.reg? ++ i.place?.toList

def isPhi : Instr → Bool
  | phi .. => true
  | _ => false

end Instr

inductive Terminator where
  | ret (value : Operand)
  | br (dest : BlockId)
  | condBr (cond : Reg) (yes no : BlockId)
deriving DecidableEq

namespace Terminator

def successors : Terminator → List BlockId
  | ret _ => []
  | br d => [d]
  | condBr _ yes no => [yes, no]

def uses : Terminator → List Reg
  | ret v => v.reg?.toList
  | br _ => []
  | condBr c _ _ => [c]

end Terminator

structure Block where
  id : BlockId
  label : String
  instrs : List Instr
  terminator : Terminator
deriving DecidableEq

structure Function where
  name : String
  params : List String
  blocks : List Block
deriving DecidableEq

namespace Function

def block? (f : Function) (id : BlockId) : Option Block := f.blocks.find? (·.id == id)

def label? (f : Function) (id : BlockId) : Option String := (f.block? id).map (·.label)

def hasEdge (f : Function) (source target : BlockId) : Bool :=
  f.blocks.any fun b => b.id == source && b.terminator.successors.contains target

end Function

structure Module where
  name : String
  functions : List Function := []
deriving DecidableEq

def Module.function? (m : Module) (name : String) : Option Function :=
  m.functions.find? (·.name == name)

end SmallLisp.IR
