import SmallLisp.Syntax.Cursor
import SmallLisp.Syntax.Expr
import SmallLisp.Syntax.Fault
import SmallLisp.Syntax.Operator

/-!
# Reading expressions

A program is a sequence of forms:

    form     := integer | name | '&' form | '(' rest
    rest     := 'def' name '(' name* ')' form+ ')' | 'if' call form [form] ')' | head form* ')'

Blanks may stand between any two tokens. A name or an integer is a maximal run that must be
followed by a blank, a closing parenthesis or the end of the text; a head, and the name of a
definition, may also be followed by an opening parenthesis.

A fault leaves the cursor where reading stopped. Nested forms are read with a bound on the number
of characters left, which `Parser.expr` and `Parser.program` take from the text itself.
-/
namespace SmallLisp

def isNameChar (c : Char) : Bool := c.isLower || c == '_' || isOperatorChar c

def digitsValue (ds : List Char) : Nat := ds.foldl (fun n d => 10 * n + (d.toNat - '0'.toNat)) 0

/-- A step of reading: it moves the cursor, and it fails with a fault and the cursor at the fault. -/
abbrev Parser := EStateM ParseError Cursor

namespace Parser

def peek? : Parser (Option Char) := return (← get).rest.head?

def offset : Parser Nat := return (← get).offset

def advance : Parser Unit := modify Cursor.advance

def skipBlanks : Parser Unit := modify (·.skip isBlank)

def spanFrom (start : Nat) : Parser Span := return (← get).spanFrom start

def run (p : Char → Bool) : Parser (List Char) := do
  let c ← get
  set (c.skip p)
  return c.rest.takeWhile p

/-- Fails because the text goes on with something else than what is expected, or ends. -/
def unexpected {α : Type} (expected : Expectation) : Parser α := do
  let c ← get
  match c.rest with
  | [] => throw ⟨.unexpectedEnd expected, .point c.offset⟩
  | found :: _ => throw ⟨.unexpectedChar found expected, c.charSpan⟩

/-- Checks that a token ends here; `opening` says whether an opening parenthesis ends it too. -/
def tokenEnd (opening : Bool) : Parser Unit := do
  match ← peek? with
  | none => return
  | some c => if isBlank c || c == ')' || (opening && c == '(') then return else unexpected .tokenEnd

def char (c : Char) (expected : Expectation) : Parser Unit := do
  if (← peek?) == some c then advance else unexpected expected

/-- A name that starts with a lowercase letter, in a place where nothing else may stand. -/
def identifier (expected : Expectation) (opening : Bool) : Parser String := do
  let c ← get
  match c.rest with
  | [] => unexpected expected
  | found :: _ =>
    if found.isLower then
      let name ← run isNameChar
      tokenEnd opening
      return String.ofList name
    else throw ⟨.expectedName found expected, c.charSpan⟩

/-- An integer. That it is too great is found before what follows it is looked at. -/
def integer : Parser Expr := do
  let start ← offset
  let digits ← run Char.isDigit
  let span ← spanFrom start
  if digitsValue digits < 1 <<< 63 then
    tokenEnd false
    return .int (Int64.ofNat (digitsValue digits)) span
  else throw ⟨.integerOverflow (String.ofList digits), span⟩

def variableName : Parser Expr := do
  let start ← offset
  let name ← run isNameChar
  tokenEnd false
  return .name (String.ofList name) (← spanFrom start)

/-- The parameters of a definition with the parenthesis that closes them. -/
def params : Nat → Parser (List String)
  | 0 => unexpected .parameterName
  | n + 1 => do
    skipBlanks
    if (← peek?) == some ')' then
      advance
      return []
    else
      let param ← identifier .parameterName false
      return param :: (← params n)

/-- Forms, read by `expr`, with the parenthesis that closes them. -/
def untilClose (expr : Parser Expr) : Nat → Parser (List Expr)
  | 0 => unexpected .close
  | n + 1 => do
    skipBlanks
    match ← peek? with
    | none => unexpected .close
    | some c =>
      if c == ')' then
        advance
        return []
      else
        let e ← expr
        return e :: (← untilClose expr n)

/-- A definition, from after its `def`. -/
def definition (expr : Parser Expr) (n start : Nat) : Parser Expr := do
  skipBlanks
  let name ← identifier .functionName true
  skipBlanks
  char '(' .parameterList
  let ps ← params n
  let body ← untilClose expr n
  let span ← spanFrom start
  if body.isEmpty then throw ⟨.emptyBody name, span⟩ else return .define ⟨name, ps, body, span⟩ span

def conditional (expr : Parser Expr) (start : Nat) : Parser Expr := do
  match ← expr with
  | .call test _ =>
    let yes ← expr
    skipBlanks
    let no ← if (← peek?) == some ')' then pure none else do
      let e ← expr
      skipBlanks
      pure (some e)
    char ')' .closeConditional
    return .branch test yes no (← spanFrom start)
  | other => throw ⟨.conditionNotCall, other.span⟩

def form (expr : Parser Expr) (n : Nat) : Parser Expr := do
  let start ← offset
  advance
  skipBlanks
  match ← peek? with
  | none => unexpected .operand
  | some c =>
    if c.isLower || isOperatorChar c then
      let head := String.ofList (← run isNameChar)
      tokenEnd true
      if head == "def" then definition expr n start
      else if head == "if" then conditional expr start
      else
        let args ← untilClose expr n
        let span ← spanFrom start
        return .call ⟨head, args, span⟩ span
    else unexpected .operand

/-- One form with the blanks before it, where at most `n` characters are nested or left. -/
def exprWithin : Nat → Parser Expr
  | 0 => unexpected .expression
  | n + 1 => do
    skipBlanks
    let start ← offset
    match ← peek? with
    | none => unexpected .expression
    | some c =>
      if c == '(' then form (exprWithin n) n
      else if c == '&' then
        advance
        let target ← exprWithin n
        return .ref target ((Span.point start).cover target.span)
      else if c.isDigit then integer
      else if c.isLower then variableName
      else unexpected .expression

def expr : Parser Expr := do exprWithin ((← get).rest.length + 1)

/-- Forms up to the end of the text, where at most `n` characters are left. -/
def programWithin : Nat → Parser (List Expr)
  | 0 => unexpected .expression
  | n + 1 => do
    skipBlanks
    if (← peek?).isNone then return []
    else
      let e ← expr
      return e :: (← programWithin n)

def program : Parser (List Expr) := do programWithin ((← get).rest.length + 1)

end Parser

def parse (source : String) : Except ParseError (List Expr) :=
  match Parser.program (.ofText source) with
  | .ok forms _ => .ok forms
  | .error e _ => .error e

end SmallLisp
