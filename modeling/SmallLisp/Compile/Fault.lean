import SmallLisp.Diagnostic.Basic
import SmallLisp.Diagnostic.Wording
import SmallLisp.IR.Builder
import SmallLisp.IR.Verify

/-!
# Faults of compilation

All but the last two are faults of the program and carry the span of a node in it. An internal
fault and a malformed module are bugs of the compiler, except that a hand-made tree can have a
definition with an empty body.
-/
namespace SmallLisp

inductive InternalFault where
  | emptyBody (function : String)
  | unfinished (cause : IR.Unfinished)
  | misuse (cause : IR.Misuse)
deriving DecidableEq

def InternalFault.message : InternalFault → String
  | emptyBody function => "function `" ++ function ++ "` has an empty body"
  | unfinished cause => cause.message
  | misuse cause => cause.message

inductive CompileError where
  | unboundName (name : String) (span : Span)
  | undefinedFunction (name : String) (span : Span)
  | wrongArity (head : String) (expected : Arity) (found : Nat) (span : Span)
  | typeMismatch (expected found : Category) (span : Span)
  /-- A second definition of a name; `previous` is where the name was defined before. -/
  | redefinition (name : String) (span previous : Span)
  | unsupported (feature : Feature) (span : Span)
  | internal (fault : InternalFault)
  | malformed (error : IR.VerifyError)
deriving DecidableEq

namespace CompileError

def message : CompileError → String
  | unboundName name _ => Wording.unboundName name
  | undefinedFunction name _ => "call to undefined function `" ++ name ++ "`"
  | wrongArity head expected found _ => Wording.wrongArity head expected found
  | typeMismatch expected found _ => Wording.typeMismatch expected found
  | redefinition name .. => "function `" ++ name ++ "` is defined more than once"
  | unsupported feature _ => Wording.unsupported feature
  | internal fault => "internal compiler error: " ++ fault.message
  | malformed error => "internal compiler error: generated IR is malformed: " ++ error.message

def span? : CompileError → Option Span
  | unboundName _ s | undefinedFunction _ s | wrongArity _ _ _ s | typeMismatch _ _ s
  | redefinition _ s _ | unsupported _ s => some s
  | internal _ | malformed _ => none

def code : CompileError → ErrorCode
  | unboundName .. => .unboundName
  | undefinedFunction .. => .undefinedFunction
  | wrongArity .. => .wrongArity
  | typeMismatch .. => .typeMismatch
  | redefinition .. | unsupported .. => .unsupported
  | internal _ | malformed _ => .internal

def labels : CompileError → List Label
  | unboundName _ s => [⟨s, "not found in this scope", true⟩]
  | undefinedFunction _ s => [⟨s, "no function with this name", true⟩]
  | wrongArity _ _ _ s => [⟨s, "wrong number of arguments", true⟩]
  | typeMismatch expected _ s => [⟨s, expected.text, true⟩]
  | redefinition _ s previous => [⟨s, "redefined here", true⟩, ⟨previous, "first defined here", false⟩]
  | unsupported _ s => [⟨s, "cannot be compiled", true⟩]
  | internal _ | malformed _ => []

def notes : CompileError → List String
  | internal _ | malformed _ => ["this is a bug in the compiler"]
  | _ => []

def diagnostic (e : CompileError) : Diagnostic where
  code := e.code
  message := e.message
  labels := e.labels
  notes := e.notes

/-- A fault has a span exactly where the compiler itself is not to blame. -/
theorem span?_isSome_iff (e : CompileError) : e.span?.isSome ↔ e.code.isInternal = false := by
  cases e <;> simp [span?, code, ErrorCode.isInternal]

end CompileError
end SmallLisp
