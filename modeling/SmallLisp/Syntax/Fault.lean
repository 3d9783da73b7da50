import SmallLisp.Diagnostic.Basic

/-!
# Faults in the form of a source text

Reading stops at the first fault. A `ParseError` is a fault with the span that it is reported at.
-/
namespace SmallLisp

inductive Expectation where
  | expression | operand | functionName | parameterName
  | parameterList | close | closeConditional | tokenEnd
deriving DecidableEq

def Expectation.text : Expectation → String
  | expression => "an expression"
  | operand => "an operand"
  | functionName => "a function name"
  | parameterName => "a parameter name"
  | parameterList => "`(` before the parameter list"
  | close => "`)`"
  | closeConditional => "`)` to close `if`"
  | tokenEnd => "whitespace or `)`"

inductive SyntaxFault where
  | unexpectedChar (found : Char) (expected : Expectation)
  | unexpectedEnd (expected : Expectation)
  /-- A literal beyond the greatest 64-bit signed integer. -/
  | integerOverflow (digits : String)
  | emptyBody (function : String)
  /-- A condition that is an atom, a definition, a conditional or a reference. -/
  | conditionNotCall
  /-- A name that does not start with a lowercase letter. -/
  | expectedName (found : Char) (expected : Expectation)
deriving DecidableEq

namespace SyntaxFault

def message : SyntaxFault → String
  | unexpectedChar found expected =>
    "unexpected character `" ++ found.toString ++ "`, expected " ++ expected.text
  | unexpectedEnd expected => "unexpected end of input, expected " ++ expected.text
  | integerOverflow digits =>
    "integer literal `" ++ digits ++ "` does not fit in a signed 64-bit integer"
  | emptyBody function => "function `" ++ function ++ "` has an empty body"
  | conditionNotCall => "the condition of `if` must be a parenthesized call"
  | expectedName found expected => "expected " ++ expected.text ++ ", found `" ++ found.toString ++ "`"

def code : SyntaxFault → ErrorCode
  | unexpectedChar .. => .unexpectedChar
  | unexpectedEnd _ => .unexpectedEnd
  | integerOverflow _ => .integerOverflow
  | emptyBody _ => .emptyBody
  | conditionNotCall => .conditionNotCall
  | expectedName .. => .expectedName

def label : SyntaxFault → String
  | unexpectedChar .. | expectedName .. => "unexpected here"
  | unexpectedEnd _ => "input ends here"
  | integerOverflow _ => "out of range"
  | emptyBody _ => "defined here"
  | conditionNotCall => "not a call"

def notes : SyntaxFault → List String
  | unexpectedChar .. | unexpectedEnd _ => []
  | integerOverflow _ => ["the largest integer literal is " ++ toString Int64.maxValue]
  | emptyBody _ => ["a function body needs at least one expression"]
  | conditionNotCall => ["write the condition as a comparison, e.g. `(< a b)`"]
  | expectedName .. => ["names start with a lowercase letter"]

end SyntaxFault

structure ParseError where
  fault : SyntaxFault
  span : Span
deriving DecidableEq

def ParseError.diagnostic (e : ParseError) : Diagnostic where
  code := e.fault.code
  message := e.fault.message
  labels := [⟨e.span, e.fault.label, true⟩]
  notes := e.fault.notes

theorem SyntaxFault.isSyntax_code (f : SyntaxFault) : f.code.isSyntax = true := by cases f <;> rfl

end SmallLisp
