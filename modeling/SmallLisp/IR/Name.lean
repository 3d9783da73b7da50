/-!
# Names in printed modules

A name that is no bare identifier is put in quotes, with a quotation mark, a backslash and every
character that is not visible ASCII written as a backslash and two hexadecimal digits for each
byte of its UTF-8 form.
-/
namespace SmallLisp.IR.Name

def isBareChar (c : Char) : Bool := c.isAlphanum || c == '-' || c == '$' || c == '.' || c == '_'

def isBare (name : String) : Bool :=
  match name.toList with
  | [] => false
  | c :: cs => !c.isDigit && isBareChar c && cs.all isBareChar

/-- Characters that stand for themselves between quotes. -/
def isPlainChar (c : Char) : Bool := '!' ≤ c && c ≤ '~' && c != '"' && c != '\\'

def hexDigit (n : Nat) : Char := if n < 10 then Char.ofNat ('0'.toNat + n) else Char.ofNat ('A'.toNat + (n - 10))

def escapeByte (b : UInt8) : List Char := ['\\', hexDigit (b.toNat / 16), hexDigit (b.toNat % 16)]

def escapeChar (c : Char) : List Char :=
  if isPlainChar c then [c] else (String.utf8EncodeChar c).flatMap escapeByte

def quoted (text : String) : String :=
  String.ofList ('"' :: text.toList.flatMap escapeChar ++ ['"'])

def text (sigil : Char) (name : String) : String :=
  sigil.toString ++ if isBare name then name else quoted name

end SmallLisp.IR.Name
