/-!
# Operators of the language

A call's head is looked up here first: arithmetic, comparison and the raw write call are built
in, and every other head names a function of the program. The reader does not use this table, so
a call of a built-in operator is read like any other.
-/
namespace SmallLisp

/-- Arithmetic on 64-bit integers, folded from the left over any number of operands. -/
inductive ArithOp where
  | add | sub | mul | div | rem
deriving DecidableEq

inductive CompareOp where
  | lt | gt | eq
deriving DecidableEq

/-- What a call does when its head is not the name of a function. -/
inductive Builtin where
  | arith (op : ArithOp)
  | compare (op : CompareOp)
  | sysWrite
deriving DecidableEq

inductive Arity where
  | exactly (count : Nat)
  | atLeast (count : Nat)
deriving DecidableEq

/-- Characters that may form an operator or continue a name. -/
def isOperatorChar (c : Char) : Bool := ['+', '-', '*', '/', '%', '<', '>', '=', '&'].contains c

namespace ArithOp

def symbol : ArithOp → String
  | add => "+"
  | sub => "-"
  | mul => "*"
  | div => "/"
  | rem => "%"

end ArithOp

namespace CompareOp

def symbol : CompareOp → String
  | lt => "<"
  | gt => ">"
  | eq => "="

end CompareOp

namespace Arity

def accepts : Arity → Nat → Bool
  | exactly n, count => count == n
  | atLeast n, count => n ≤ count

/-- As in `2 arguments`; one argument is in the singular. -/
def text : Arity → String
  | exactly n => amount n
  | atLeast n => "at least " ++ amount n
where
  amount (n : Nat) : String := toString n ++ if n = 1 then " argument" else " arguments"

end Arity

namespace Builtin

/-- The built-in operation that a call's head names. -/
def ofHead? : String → Option Builtin
  | "+" => some (.arith .add)
  | "-" => some (.arith .sub)
  | "*" => some (.arith .mul)
  | "/" => some (.arith .div)
  | "%" => some (.arith .rem)
  | "<" => some (.compare .lt)
  | ">" => some (.compare .gt)
  | "=" => some (.compare .eq)
  | "sys_write" => some .sysWrite
  | _ => none

def head : Builtin → String
  | arith op => op.symbol
  | compare op => op.symbol
  | sysWrite => "sys_write"

def arity : Builtin → Arity
  | arith _ => .atLeast 1
  | compare _ => .exactly 2
  | sysWrite => .exactly 3

theorem ofHead?_head (b : Builtin) : ofHead? b.head = some b := by
  rcases b with (_ | _ | _ | _ | _) | (_ | _ | _) | _ <;> rfl

theorem eq_head_of_ofHead? {head : String} {b : Builtin} (h : ofHead? head = some b) :
    head = b.head := by
  unfold ofHead? at h
  split at h <;> simp_all [Builtin.head, ArithOp.symbol, CompareOp.symbol] <;> subst h <;> rfl

/-- A head names a built-in operation exactly when it is that operation's own head. -/
theorem ofHead?_eq_some_iff {head : String} {b : Builtin} : ofHead? head = some b ↔ head = b.head :=
  ⟨eq_head_of_ofHead?, fun h => h ▸ ofHead?_head b⟩

end Builtin
end SmallLisp
