import SmallLisp.Source.Span

/-!
# Expressions

The syntax tree that the interpreter and the compiler share. Every node carries the span it was
read from. A call's head is text: whether it names a built-in operation or a function is decided
where the call is evaluated or compiled.
-/
namespace SmallLisp

mutual

/-- An expression. Each constructor ends in the span of the expression itself. -/
inductive Expr where
  /-- An integer, as in `42`. -/
  | int (value : Int64) (span : Span)
  /-- The name of a variable. -/
  | name (name : String) (span : Span)
  /-- The address of a copy of a value, as in `&x`. -/
  | ref (target : Expr) (span : Span)
  /-- A call, as in `(+ 1 2)`. -/
  | call (call : Call) (span : Span)
  /-- The definition of a function. -/
  | define (definition : Definition) (span : Span)
  /-- A choice by a comparison, as in `(if (< a b) a b)`; the last part may be left out. -/
  | branch (test : Call) (yes : Expr) (no : Option Expr) (span : Span)

structure Call where
  head : String
  args : List Expr
  span : Span

/-- A function with its parameters; the value of the last expression of the body is its result. -/
structure Definition where
  name : String
  params : List String
  body : List Expr
  span : Span

end

inductive Category where
  | integer | function | comparison | plainCall | reference
  | literal | call | definition | identifier | conditional
deriving DecidableEq

def Category.text : Category → String
  | integer => "an integer"
  | function => "a function"
  | comparison => "a comparison"
  | plainCall => "a call that is not a comparison"
  | reference => "a reference"
  | literal => "an integer literal"
  | call => "a call"
  | definition => "a function definition"
  | identifier => "an identifier"
  | conditional => "a conditional"

namespace Expr

def span : Expr → Span
  | int _ s | name _ s | ref _ s | call _ s | define _ s | branch _ _ _ s => s

def category : Expr → Category
  | int .. => .literal
  | name .. => .identifier
  | ref .. => .reference
  | call .. => .call
  | define .. => .definition
  | branch .. => .conditional

/-- Induction over an expression and the expressions in it, at any depth. -/
theorem induction {P : Expr → Prop} (int : ∀ v s, P (.int v s)) (name : ∀ x s, P (.name x s))
    (ref : ∀ e s, P e → P (.ref e s)) (call : ∀ c s, (∀ a ∈ c.args, P a) → P (.call c s))
    (define : ∀ d s, (∀ e ∈ d.body, P e) → P (.define d s))
    (branch : ∀ t y n s, (∀ a ∈ t.args, P a) → P y → (∀ e ∈ n, P e) → P (.branch t y n s))
    (e : Expr) : P e :=
  Expr.rec (motive_1 := P) (motive_2 := fun c => ∀ a ∈ c.args, P a)
    (motive_3 := fun d => ∀ e ∈ d.body, P e) (motive_4 := fun n => ∀ e ∈ n, P e)
    (motive_5 := fun es => ∀ e ∈ es, P e) int name ref call define
    (fun t y n s ht hy hn => branch t y n s ht hy hn) (fun _ _ _ h => h) (fun _ _ _ _ h => h)
    (by simp) (by simp) (by simp) (fun _ _ he hes => by simpa using ⟨he, hes⟩) e

end Expr

namespace Definition

def arity (d : Definition) : Nat := d.params.length

/-- Whether this is the function that a program starts with. -/
def isMain (d : Definition) : Bool := d.name == "main"

end Definition
end SmallLisp
