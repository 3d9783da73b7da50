import SmallLisp.Source.Span

/-!
# Diagnostics

A diagnostic is what a fault looks like to a person: a code that can be looked up, a message,
labels on parts of the source and notes. `Diagnostic.text` is its form without the source.
-/
namespace SmallLisp

inductive ErrorCode where
  | unexpectedChar | unexpectedEnd | integerOverflow | emptyBody | conditionNotCall | expectedName
  | unboundName | undefinedFunction | wrongArity | typeMismatch
  | unsupported | divisionByZero
  | internal
deriving DecidableEq

namespace ErrorCode

/-- The first digit tells the phase: 1 reading, 2 names and types, 3 limits, 9 a compiler bug. -/
def text : ErrorCode → String
  | unexpectedChar => "E1001"
  | unexpectedEnd => "E1002"
  | integerOverflow => "E1003"
  | emptyBody => "E1004"
  | conditionNotCall => "E1005"
  | expectedName => "E1006"
  | unboundName => "E2001"
  | undefinedFunction => "E2002"
  | wrongArity => "E2003"
  | typeMismatch => "E2004"
  | unsupported => "E3001"
  | divisionByZero => "E3002"
  | internal => "E9001"

def all : List ErrorCode :=
  [unexpectedChar, unexpectedEnd, integerOverflow, emptyBody, conditionNotCall, expectedName,
    unboundName, undefinedFunction, wrongArity, typeMismatch, unsupported, divisionByZero, internal]

def ofText? (s : String) : Option ErrorCode := all.find? (·.text == s)

def isSyntax : ErrorCode → Bool
  | unexpectedChar | unexpectedEnd | integerOverflow | emptyBody | conditionNotCall
  | expectedName => true
  | _ => false

def isInternal : ErrorCode → Bool
  | internal => true
  | _ => false

theorem ofText?_text (c : ErrorCode) : ofText? c.text = some c := by cases c <;> rfl

end ErrorCode

inductive Severity where
  | error | warning | note
deriving DecidableEq

def Severity.text : Severity → String
  | error => "error"
  | warning => "warning"
  | note => "note"

/-- A message about a part of the source; a primary label marks where the fault is, and the others
mark what it relates to. -/
structure Label where
  span : Span
  message : String
  primary : Bool := true

structure Diagnostic where
  code : ErrorCode
  severity : Severity := .error
  message : String
  labels : List Label := []
  notes : List String := []

namespace Diagnostic

def primarySpan? (d : Diagnostic) : Option Span := (d.labels.find? (·.primary)).map (·.span)

def isError (d : Diagnostic) : Bool := d.severity == .error

def text (d : Diagnostic) : String :=
  d.severity.text ++ " [" ++ d.code.text ++ "]: " ++ d.message
    ++ String.join (d.labels.map labelLine) ++ String.join (d.notes.map ("\n  = note: " ++ ·))
where
  labelLine (l : Label) : String :=
    "\n  " ++ (if l.primary then "-->" else "   ") ++ " " ++ l.span.text ++ ": " ++ l.message

end Diagnostic
end SmallLisp
