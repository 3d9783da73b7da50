import SmallLisp.Eval.Arithmetic
import SmallLisp.Eval.Fault
import SmallLisp.Scope

/-!
# The interpreter

Expressions are evaluated in a scope of bindings. A call runs the body of the function in a new
frame on top of the caller's scope, so names are resolved through the callers. A definition binds
its name where it stands and has the value zero; the definition of `main` also runs its body at
once, in the same frame.

Evaluation is given a depth and has no outcome where nesting goes deeper; values and faults do
not depend on the depth.
-/
namespace SmallLisp

inductive Binding where
  | int (value : Int64)
  | function (definition : Definition)

def Binding.category : Binding → Category
  | int _ => .integer
  | function _ => .function

abbrev Env := Scope Binding

/-- A step of evaluation: a value or a fault, with the scope after it, or no outcome. -/
abbrev EvalM := ExceptT EvalError (StateT Env Option)

namespace EvalM

def diverge {α : Type} : EvalM α := ExceptT.mk fun _ => none

def fail {α : Type} (fault : EvalFault) (span : Span) : EvalM α := throw ⟨fault, span⟩

/-- Runs a step in a new innermost frame, which is gone afterwards also where the step fails. -/
def inFrame {α : Type} (step : EvalM α) : EvalM α := ExceptT.mk fun scope =>
  match step.run scope.push with
  | none => none
  | some (result, after) => some (result, after.pop)

def define (name : String) (binding : Binding) : EvalM Unit := modify (·.define name binding)

end EvalM

open EvalM

/-- Evaluates expressions in order; the value is the last one's, or zero where there is none. -/
def evalSequence (eval : Expr → EvalM Int64) (es : List Expr) : EvalM Int64 :=
  es.foldlM (fun _ e => eval e) 0

namespace Call

def evalArith (eval : Expr → EvalM Int64) (op : ArithOp) (c : Call) : EvalM Int64 :=
  match c.args with
  | [] => fail (.wrongArity c.head (.atLeast 1) 0) c.span
  | first :: rest => do
    let value ← eval first
    let values ← rest.mapM eval
    match op.fold value values with
    | .ok result => return result
    | .error i => fail .divisionByZero ((rest[i]?.map Expr.span).getD c.span)

def evalCompare (eval : Expr → EvalM Int64) (op : CompareOp) (c : Call) : EvalM Bool :=
  match c.args with
  | [left, right] => do
    let a ← eval left
    let b ← eval right
    return op.holds a b
  | args => fail (.wrongArity c.head (.exactly 2) args.length) c.span

/-- A call of a function of the program. The operands are evaluated in the caller's scope. -/
def evalUser (eval : Expr → EvalM Int64) (c : Call) : EvalM Int64 := do
  match (← get).lookup? c.head with
  | none => fail (.unboundName c.head) c.span
  | some (.int _) => fail (.typeMismatch .function .integer) c.span
  | some (.function d) =>
    if d.arity = c.args.length then
      let values ← c.args.mapM eval
      inFrame do
        (d.params.zip values).forM fun (param, value) => define param (.int value)
        evalSequence eval d.body
    else fail (.wrongArity c.head (.exactly d.arity) c.args.length) c.span

def eval (eval : Expr → EvalM Int64) (c : Call) : EvalM Int64 :=
  match Builtin.ofHead? c.head with
  | some (.arith op) => c.evalArith eval op
  | some (.compare op) => return if ← c.evalCompare eval op then 1 else 0
  | some .sysWrite => fail (.unsupported .systemCalls) c.span
  | none => c.evalUser eval

end Call

namespace Expr

/-- Evaluates an expression, the expressions in it and called bodies being left to `eval`. -/
def evalStep (eval : Expr → EvalM Int64) : Expr → EvalM Int64
  | int value _ => return value
  | name x span => do
    match (← get).lookup? x with
    | some (.int value) => return value
    | some (.function _) => fail (.typeMismatch .integer .function) span
    | none => fail (.unboundName x) span
  | ref _ span => fail (.unsupported .references) span
  | call c _ => c.eval eval
  | define d _ => do
    EvalM.define d.name (.function d)
    if d.isMain then evalSequence eval d.body else return 0
  | branch test yes no _ =>
    match Builtin.ofHead? test.head with
    | some (.compare op) => do
      if ← test.evalCompare eval op then eval yes
      else match no with
        | some e => eval e
        | none => return 0
    | _ => fail (.typeMismatch .comparison .plainCall) test.span

def eval : (depth : Nat) → Expr → EvalM Int64
  | 0, _ => diverge
  | depth + 1, e => e.evalStep (eval depth)

end Expr

def evalProgram (depth : Nat) (program : List Expr) : EvalM Int64 :=
  evalSequence (Expr.eval depth) program

def interpret (depth : Nat) (program : List Expr) : Option (Except EvalError Int64) :=
  (evalProgram depth program Scope.empty).map (·.1)

end SmallLisp
