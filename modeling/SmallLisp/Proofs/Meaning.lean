import SmallLisp.Eval.Arithmetic
import SmallLisp.Proofs.DefinitionSites
import SmallLisp.Proofs.SplitTree

/-! # The meaning of a program with lexical names

A program of definitions at any depth has a meaning in which a body sees its own parameters and nothing
else, and a call is of the one definition with that name, whoever calls. Operands are computed in order
and an operation is carried out as soon as its operands are there. The kernel answers a write with an
integer that is given beforehand. Both the interpreter and compiled code are compared with this meaning.

Calls are given a depth; values do not depend on it, and a meaning that needs more says so.
-/
namespace SmallLisp

/-- A write that the kernel was asked for, and its answer. -/
structure Write where
  fd : Int64
  /-- The value whose address is passed. -/
  value : Int64
  length : Int64
  answer : Int64
deriving DecidableEq

inductive Halt where
  | zeroDivisor
  | tooDeep
  /-- A form that no compiled program has at this place. -/
  | illFormed
deriving DecidableEq

abbrev Run := StateT (List Write) (Except Halt)

namespace Run

def arith (op : ArithOp) (x y : Run Int64) : Run Int64 := do
  let a ← x
  let b ← y
  match op.apply a b with
  | some v => return v
  | none => throw .zeroDivisor

def arithmetic (op : ArithOp) : List (Run Int64) → Run Int64
  | [] => throw .illFormed
  | x :: xs => xs.foldl (arith op) x

def compare (op : CompareOp) : List (Run Int64) → Run Bool
  | [x, y] => do
    let a ← x
    let b ← y
    return op.holds a b
  | _ => throw .illFormed

def inOrder : List (Run Int64) → Run (List Int64)
  | [] => return []
  | x :: xs => do
    let v ← x
    return v :: (← inOrder xs)

def last : List (Run Int64) → Run Int64
  | [] => throw .illFormed
  | [x] => x
  | x :: y :: xs => do
    let _ ← x
    last (y :: xs)

def conditional (head : String) (args : List (Run Int64)) (yes no : Run Int64) : Run Int64 :=
  match Builtin.ofHead? head with
  | some (.compare op) => do if ← compare op args then yes else no
  | _ => throw .illFormed

/-- A write: zero where the kernel wrote all bytes, and otherwise what it answered. -/
def write (answers : Nat → Int64) (fd value length : Run Int64) : Run Int64 := do
  let fd ← fd
  let value ← value
  let length ← length
  let past ← get
  let answer := answers past.length
  set (past ++ [⟨fd, value, length, answer⟩])
  return if answer = length then 0 else answer

end Run

section Expressions
variable (answers : Nat → Int64) (call : String → List Int64 → Run Int64) (vars : String → Option Int64)

mutual

def Expr.meaning : Expr → Run Int64
  | .int v _ => return v
  | .name x _ =>
    match vars x with
    | some v => return v
    | none => throw .illFormed
  | .ref .. => throw .illFormed
  | .call c _ => c.meaning
  | .define .. => return 0
  | .branch ⟨head, args, _⟩ yes no _ =>
    Run.conditional head (meaningEach args) yes.meaning
      (match no with
        | some e => e.meaning
        | none => return 0)

def Call.meaning : Call → Run Int64
  | ⟨head, args, _⟩ =>
    match Builtin.ofHead? head with
    | some (.arith op) => Run.arithmetic op (meaningEach args)
    | some (.compare op) => do
      if ← Run.compare op (meaningEach args) then return 1 else return 0
    | some .sysWrite =>
      match args with
      | [fd, .ref value _, length] => Run.write answers fd.meaning value.meaning length.meaning
      | _ => throw .illFormed
    | none => do call head (← Run.inOrder (meaningEach args))

def meaningEach : List Expr → List (Run Int64)
  | [] => []
  | e :: es => e.meaning :: meaningEach es

end

variable {answers call vars}

theorem meaningEach_eq_map (es : List Expr) :
    meaningEach answers call vars es = es.map (Expr.meaning answers call vars) := by
  induction es with
  | nil => rfl
  | cons e es ih => exact congrArg (e.meaning answers call vars :: ·) ih

theorem Expr.meaning_branch (t : Call) (yes : Expr) (no : Option Expr) (s : Span) :
    (Expr.branch t yes no s).meaning answers call vars =
      Run.conditional t.head (t.args.map (Expr.meaning answers call vars))
        (yes.meaning answers call vars)
        (match no with
          | some e => e.meaning answers call vars
          | none => return 0) := by
  rw [← meaningEach_eq_map]
  cases t
  cases no <;> rfl

section Calls
variable {c : Call}

theorem Call.meaning_arith {op : ArithOp} (h : Builtin.ofHead? c.head = some (.arith op)) :
    c.meaning answers call vars = Run.arithmetic op (c.args.map (Expr.meaning answers call vars)) := by
  rw [← meaningEach_eq_map]
  cases c
  unfold Call.meaning
  simp only [h]

theorem Call.meaning_compare {op : CompareOp} (h : Builtin.ofHead? c.head = some (.compare op)) :
    c.meaning answers call vars = (do
      if ← Run.compare op (c.args.map (Expr.meaning answers call vars)) then return 1 else return 0) := by
  rw [← meaningEach_eq_map]
  cases c
  unfold Call.meaning
  simp only [h]

theorem Call.meaning_write {fd value length : Expr} {s : Span}
    (h : Builtin.ofHead? c.head = some .sysWrite) (hargs : c.args = [fd, .ref value s, length]) :
    c.meaning answers call vars = Run.write answers (fd.meaning answers call vars)
      (value.meaning answers call vars) (length.meaning answers call vars) := by
  cases c
  subst hargs
  unfold Call.meaning
  simp only [h]

theorem Call.meaning_user (h : Builtin.ofHead? c.head = none) : c.meaning answers call vars =
    (do call c.head (← Run.inOrder (c.args.map (Expr.meaning answers call vars)))) := by
  rw [← meaningEach_eq_map]
  cases c
  unfold Call.meaning
  simp only [h]

end Calls

def Split.meaning (answers : Nat → Int64) (call : String → List Int64 → Run Int64)
    (vars : String → Option Int64) : Split Expr → Run Int64
  | .leaf e => e.meaning answers call vars
  | .node op l r => Run.arith op (l.meaning answers call vars) (r.meaning answers call vars)

end Expressions

/-! ## Trees of operations -/

namespace Run

/-- Operations with a law for moving the parentheses. -/
theorem arith_assoc {op : ArithOp} (hop : op = .add ∨ op = .sub ∨ op = .mul) (x y z : Run Int64) :
    arith op x (arith op.onRight y z) = arith op (arith op x y) z := by
  rcases hop with rfl | rfl | rfl <;>
    simp only [arith, ArithOp.onRight, ArithOp.apply, bind_assoc, pure_bind] <;>
    refine bind_congr fun a => bind_congr fun b => bind_congr fun c => congrArg pure ?_
  · exact (Int64.add_assoc a b c).symm
  · exact (Int64.sub_sub a b c).symm
  · exact (Int64.mul_assoc a b c).symm

/-- Operands on the right that are combined first. -/
theorem arith_foldl {op : ArithOp} {xs : List (Run Int64)}
    (hop : (op = .add ∨ op = .sub ∨ op = .mul) ∨ xs = []) (x y : Run Int64) :
    arith op x (xs.foldl (arith op.onRight) y) = xs.foldl (arith op) (arith op x y) := by
  induction xs generalizing y with
  | nil => rfl
  | cons z zs ih =>
    have hop' : op = .add ∨ op = .sub ∨ op = .mul := by simpa using hop
    rw [List.foldl_cons, List.foldl_cons, ih (.inl hop'), arith_assoc hop']

end Run

/-- A difference, a sum or a product moves parentheses; of a quotient or a remainder only one operand is
on the right. -/
theorem ArithOp.assoc_or_singleton {α : Type} {op : ArithOp} {left right : List α} (hr : right ≠ [])
    (hlen : left.length = op.leftCount (left ++ right).length) :
    (op = .add ∨ op = .sub ∨ op = .mul) ∨ right.tail = [] := by
  have hpos := List.length_pos_iff.mpr hr
  cases op with
  | add | sub | mul => simp
  | div | rem =>
    right
    rw [List.length_append, leftCount] at hlen
    rw [← List.length_eq_zero_iff, List.length_tail]
    omega

/-- The tree of a call computes what folding from the left computes. -/
theorem Split.meaning_of_ofList? {answers : Nat → Int64} {call : String → List Int64 → Run Int64}
    {vars : String → Option Int64} {op : ArithOp} {es : List Expr} {t : Split Expr}
    (h : Split.ofList? op es = some t) : t.meaning answers call vars =
      Run.arithmetic op (es.map (Expr.meaning answers call vars)) := by
  induction op, es using split_induction generalizing t with
  | nil op =>
    rw [ofList?] at h
    cases h
  | single op e =>
    rw [ofList?] at h
    cases h
    rfl
  | cut op left right hl hr hlen ihl ihr =>
    obtain ⟨l, hl'⟩ := ofList?_isSome op left hl
    obtain ⟨r, hr'⟩ := ofList?_isSome op.onRight right hr
    have hassoc := op.assoc_or_singleton hr hlen
    rw [ofList?_append hl hr hlen, hl', hr'] at h
    cases h
    rw [Split.meaning, ihl hl', ihr hr']
    cases left with
    | nil => exact absurd rfl hl
    | cons x xs =>
      cases right with
      | nil => exact absurd rfl hr
      | cons y ys =>
        simp only [List.map_cons, List.cons_append, List.map_append, Run.arithmetic, List.foldl_append,
          List.foldl_cons]
        exact Run.arith_foldl (by simpa using hassoc) _ _

/-! ## Functions -/

section Functions
variable (program : List Expr) (answers : Nat → Int64)

def Definition.variables (d : Definition) (args : List Int64) (x : String) : Option Int64 :=
  (d.params.zip args).lookup x

/-- Every parameter gets a value. -/
theorem exists_lookup_zip {params : List String} {args : List Int64} (hlen : args.length = params.length)
    {x : String} (hx : x ∈ params) : ∃ v, (params.zip args).lookup x = some v := by
  induction params generalizing args with
  | nil => cases hx
  | cons y ys ih =>
    cases args with
    | nil => cases hlen
    | cons a as =>
      rw [List.zip_cons_cons, List.lookup_cons]
      cases hxy : x == y with
      | true => exact ⟨a, rfl⟩
      | false =>
        have hne : x ≠ y := by simpa using hxy
        exact ih (Nat.succ.inj hlen) (List.mem_of_ne_of_mem hne hx)

/-- What a call computes where calls nest no deeper than `depth`. -/
def callMeaning : (depth : Nat) → String → List Int64 → Run Int64
  | 0, _, _ => throw .tooDeep
  | depth + 1, name, args =>
    match (definitions program).find? (·.name == name) with
    | some d => Run.last (d.body.map (Expr.meaning answers (callMeaning depth) (d.variables args)))
    | none => throw .illFormed

variable {program answers}

/-- A call where calls may nest once more. -/
theorem callMeaning_succ {depth : Nat} {name : String} {d : Definition}
    (h : (definitions program).find? (·.name == name) = some d) (args : List Int64) :
    callMeaning program answers (depth + 1) name args =
      Run.last (d.body.map (Expr.meaning answers (callMeaning program answers depth) (d.variables args))) := by
  simp only [callMeaning, h]

end Functions
end SmallLisp
