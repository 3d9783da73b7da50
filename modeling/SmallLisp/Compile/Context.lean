import SmallLisp.Compile.Fault
import SmallLisp.IR.Syscall
import SmallLisp.Scope

/-!
# The function table

A compilation holds the signatures of all functions declared so far and the module being made.
Every top-level definition is declared before any body is compiled, so the order of calls and
definitions does not matter. A definition in a body is declared when the body is compiled.
-/
namespace SmallLisp

/-- What a call has to know of a function. -/
structure Signature where
  name : String
  arity : Nat
  span : Span
deriving DecidableEq

def Definition.signature (d : Definition) : Signature := ⟨d.name, d.arity, d.span⟩

inductive Storage where
  | slot (r : IR.Reg)
  | function
deriving DecidableEq

structure Context where
  abi : IR.Abi
  module : IR.Module
  /-- Signatures by name, the latest first. -/
  signatures : List (String × Signature) := []

abbrev ContextM := EStateM CompileError Context

namespace Context

def new (moduleName : String) (abi : IR.Abi) : Context := { abi, module := { name := moduleName } }

def signature? (cx : Context) (name : String) : Option Signature := cx.signatures.lookup name

/-- Enters a signature under its name, with the one that was there before. -/
def register (cx : Context) (s : Signature) : Option Signature × Context :=
  (cx.signature? s.name, { cx with signatures := (s.name, s) :: cx.signatures })

def addFunction (cx : Context) (f : IR.Function) : Context :=
  { cx with module := { cx.module with functions := cx.module.functions ++ [f] } }

end Context

/-- Enters a definition in the table. A name that is taken is a fault, and is entered all the same. -/
def declare (d : Definition) : ContextM Unit := do
  let (previous, cx) := (← get).register d.signature
  set cx
  match previous with
  | none => return
  | some p => throw (.redefinition d.name d.span p.span)

/-- Declares the forms of a program on top of the names in `root`; every form must be a definition. -/
def declareFrom (root : Scope Storage) : List Expr → ContextM (Scope Storage × List Definition)
  | [] => return (root, [])
  | .define d _ :: es => do
    declare d
    let (root, ds) ← declareFrom (root.define d.name .function) es
    return (root, d :: ds)
  | e :: _ => throw (.unsupported .topLevelExpressions e.span)

def declareProgram (program : List Expr) : ContextM (Scope Storage × List Definition) :=
  declareFrom .empty program

end SmallLisp
