import SmallLisp.Diagnostic.Basic
import SmallLisp.Diagnostic.Wording

/-!
# Faults of evaluation

The first fault ends an evaluation. Each is reported at the span of the node that failed.
-/
namespace SmallLisp

inductive EvalFault where
  | unboundName (name : String)
  | typeMismatch (expected found : Category)
  | wrongArity (head : String) (expected : Arity) (found : Nat)
  | unsupported (feature : Feature)
  | divisionByZero
deriving DecidableEq

namespace EvalFault

def message : EvalFault → String
  | unboundName name => Wording.unboundName name
  | typeMismatch expected found => Wording.typeMismatch expected found
  | wrongArity head expected found => Wording.wrongArity head expected found
  | unsupported feature => Wording.unsupported feature
  | divisionByZero => "division by zero"

def code : EvalFault → ErrorCode
  | unboundName _ => .unboundName
  | typeMismatch .. => .typeMismatch
  | wrongArity .. => .wrongArity
  | unsupported _ => .unsupported
  | divisionByZero => .divisionByZero

def label : EvalFault → String
  | unboundName _ => "not found in this scope"
  | typeMismatch expected _ => expected.text
  | wrongArity .. => "wrong number of arguments"
  | unsupported _ => "not supported by the interpreter"
  | divisionByZero => "divisor evaluates to zero"

def notes : EvalFault → List String
  | unsupported _ => ["compile the program with `lispc compile` instead"]
  | _ => []

end EvalFault

structure EvalError where
  fault : EvalFault
  span : Span
deriving DecidableEq

def EvalError.diagnostic (e : EvalError) : Diagnostic where
  code := e.fault.code
  message := e.fault.message
  labels := [⟨e.span, e.fault.label, true⟩]
  notes := e.fault.notes

end SmallLisp
