import SmallLisp.Syntax.Operator

/-!
# Arithmetic on 64-bit integers

Sums, differences and products wrap. Division cuts toward zero and the remainder has the sign of
the dividend; the quotient of the least integer by minus one wraps to the least integer.
-/
namespace SmallLisp

namespace ArithOp

def apply (op : ArithOp) (a b : Int64) : Option Int64 :=
  match op with
  | add => some (a + b)
  | sub => some (a - b)
  | mul => some (a * b)
  | div => if b = 0 then none else some (a / b)
  | rem => if b = 0 then none else some (a % b)

/-- The operation folded over operands from the left. It fails with the position, among the operands
after the first, of the first zero divisor. -/
def fold (op : ArithOp) : Int64 → List Int64 → Except Nat Int64
  | acc, [] => .ok acc
  | acc, v :: vs =>
    match op.apply acc v with
    | none => .error 0
    | some next => (op.fold next vs).mapError (· + 1)

theorem apply_eq_none_iff {op : ArithOp} {a b : Int64} :
    op.apply a b = none ↔ (op = div ∨ op = rem) ∧ b = 0 := by
  cases op <;> simp [apply]

example : div.apply Int64.minValue (-1) = some Int64.minValue := by decide
example : rem.apply Int64.minValue (-1) = some 0 := by decide
example : div.apply (-7) 2 = some (-3) ∧ rem.apply (-7) 2 = some (-1) := by decide

end ArithOp

def CompareOp.holds (op : CompareOp) (a b : Int64) : Bool :=
  match op with
  | lt => a < b
  | gt => b < a
  | eq => a == b

end SmallLisp
