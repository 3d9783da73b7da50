import SmallLisp.Syntax.Operator

/-!
# Splitting variadic arithmetic

Operands of one call are combined by a tree of binary operations. Sums, differences and products
are cut in the middle, so that the tree is shallow; since `a - b - c - d = (a - b) - (c + d)`, the
right half of a difference is added up. Quotients and remainders have no such law and split off
the last operand alone.
-/
namespace SmallLisp

namespace ArithOp

/-- Number of operands, of `n` in all, that go to the left. -/
def leftCount (op : ArithOp) (n : Nat) : Nat :=
  match op with
  | add | sub | mul => (n + 1) / 2
  | div | rem => n - 1

def onRight : ArithOp → ArithOp
  | sub => add
  | op => op

theorem leftCount_pos (op : ArithOp) {n : Nat} (h : 2 ≤ n) : 0 < op.leftCount n := by
  cases op <;> simp only [leftCount] <;> omega

theorem leftCount_lt (op : ArithOp) {n : Nat} (h : 2 ≤ n) : op.leftCount n < n := by
  cases op <;> simp only [leftCount] <;> omega

end ArithOp

inductive Split (α : Type) where
  | leaf (operand : α)
  | node (op : ArithOp) (left right : Split α)

namespace Split
variable {α : Type}

def leaves : Split α → List α
  | leaf a => [a]
  | node _ l r => l.leaves ++ r.leaves

/-- The tree for a call of an operation; there is none without operands. -/
def ofList? (op : ArithOp) (xs : List α) : Option (Split α) :=
  match _h : xs with
  | [] => none
  | [a] => some (leaf a)
  | _ :: _ :: _ =>
    match ofList? op (xs.take (op.leftCount xs.length)),
      ofList? op.onRight (xs.drop (op.leftCount xs.length)) with
    | some l, some r => some (node op l r)
    | _, _ => none
termination_by xs.length
decreasing_by
  · subst _h; rw [List.length_take]
    exact Nat.lt_of_le_of_lt (Nat.min_le_left _ _) (op.leftCount_lt (by simp))
  · subst _h; rw [List.length_drop]
    exact Nat.sub_lt (by simp) (op.leftCount_pos (by simp))

end Split
end SmallLisp
