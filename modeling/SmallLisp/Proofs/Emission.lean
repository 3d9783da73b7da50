import SmallLisp.Compile.Lower
import SmallLisp.Proofs.DefinitionSites
import SmallLisp.Proofs.LinearCode

/-! # The code of an expression

A relation says which code an expression is compiled to, apart from the builder and from the functions
that definitions inside it become. It depends on the scope and on the next fresh numbers, and it
determines both after the expression. That compilation emits related code is proved elsewhere; what
the code does and how it is formed follows from the relation alone.
-/
namespace SmallLisp
open IR (Reg BlockId Operand Instr Item Code)

/-- The next fresh numbers of a function, and the block that code is added to. -/
structure Point where
  reg : Nat
  label : Nat
  block : Nat
  current : BlockId

namespace Point

def fresh (p : Point) (i : Nat) : Reg := ⟨p.reg + i⟩

def newBlock (p : Point) (i : Nat) : BlockId := ⟨p.block + i⟩

def skip (p : Point) (n : Nat) : Point := { p with reg := p.reg + n }

/-- After making `n` blocks for one construct and going to the first of them. -/
def branch (p : Point) (n : Nat) : Point :=
  { p with label := p.label + 1, block := p.block + n, current := p.newBlock 0 }

def goto (p : Point) (id : BlockId) : Point := { p with current := id }

end Point

/-- What code is made for: where its results go is part of it. -/
inductive Piece where
  | expr (e : Expr) (target : Reg)
  /-- An expression whose result goes to a new slot. -/
  | spill (e : Expr) (slot : Reg)
  /-- Operands under binary operations. -/
  | tree (t : Split Expr) (target : Reg)
  /-- A comparison, with its result as one bit. -/
  | test (op : CompareOp) (left right : Expr) (flag : Reg)
  /-- Expressions whose results go to fresh registers. -/
  | operands (es : List Expr) (results : List Reg)
  /-- Expressions in order, of which the last has the result. -/
  | body (es : List Expr) (target : Reg)

def constantCode (value : Int64) (target : Reg) : Code :=
  [.instr (.binary target .add (.const value) (.const 0))]

def spillCode (value slot : Reg) : Code := [.instr (.alloca slot), .instr (.store (.reg value) slot)]

def writeCode (abi : IR.Abi) (fd buffer length target : Reg) (p : Point) : Code :=
  [.instr (.ptrToInt (p.fresh 0) buffer),
    .instr (.asm (p.fresh 1) abi.template abi.constraints
      [.const abi.writeNumber, .reg fd, .reg (p.fresh 0), .reg length]),
    .instr (.icmp (p.fresh 2) .eq (.reg (p.fresh 1)) (.reg length)),
    .next (.condBr (p.fresh 2) (p.newBlock 0) (p.newBlock 1)) (p.newBlock 0)
      ("sys.ok." ++ toString p.label),
    .next (.br (p.newBlock 2)) (p.newBlock 1) ("sys.fail." ++ toString p.label),
    .next (.br (p.newBlock 2)) (p.newBlock 2) ("sys.end." ++ toString p.label),
    .instr (.phi target [(.const 0, p.newBlock 0), (.reg (p.fresh 1), p.newBlock 1)])]

/-- The code of a piece in a scope, from one point to another, and the scope after it. `known` are the
names of functions with their numbers of parameters. -/
inductive Emits (abi : IR.Abi) (known : String → Nat → Prop) :
    Piece → Scope Storage → Point → Code → Scope Storage → Point → Prop
  | int (v : Int64) (s : Span) (r : Reg) (σ : Scope Storage) (p : Point) :
    Emits abi known (.expr (.int v s) r) σ p (constantCode v r) σ p
  | name {x : String} {σ : Scope Storage} {slot : Reg} (h : σ.lookup? x = some (.slot slot))
      (s : Span) (r : Reg) (p : Point) :
    Emits abi known (.expr (.name x s) r) σ p [.instr (.load r slot)] σ p
  | define (d : Definition) (s : Span) (r : Reg) (σ : Scope Storage) (p : Point) :
    Emits abi known (.expr (.define d s) r) σ p (constantCode 0 r) (σ.define d.name .function) p
  | arith {c : Call} {s : Span} {r : Reg} {op : ArithOp} {t : Split Expr} {σ σ' : Scope Storage}
      {p p' : Point} {code : Code} (hop : Builtin.ofHead? c.head = some (.arith op))
      (ht : Split.ofList? op c.args = some t) (h : Emits abi known (.tree t r) σ p code σ' p') :
    Emits abi known (.expr (.call c s) r) σ p code σ' p'
  | compare {c : Call} {s : Span} {r : Reg} {op : CompareOp} {x y : Expr} {σ σ' : Scope Storage}
      {p p' : Point} {code : Code} (hop : Builtin.ofHead? c.head = some (.compare op))
      (hargs : c.args = [x, y]) (h : Emits abi known (.test op x y (p.fresh 0)) σ (p.skip 1) code σ' p') :
    Emits abi known (.expr (.call c s) r) σ p (code ++ [.instr (.zext r (p.fresh 0))]) σ' p'
  | write {c : Call} {s sr : Span} {r : Reg} {fd e length : Expr} {σ σ₁ σ₂ σ₃ : Scope Storage}
      {p p₁ p₂ p₃ : Point} {c₁ c₂ c₃ : Code} (hop : Builtin.ofHead? c.head = some .sysWrite)
      (hargs : c.args = [fd, .ref e sr, length])
      (h₁ : Emits abi known (.expr fd (p.fresh 0)) σ (p.skip 3) c₁ σ₁ p₁)
      (h₂ : Emits abi known (.spill e (p.fresh 1)) σ₁ p₁ c₂ σ₂ p₂)
      (h₃ : Emits abi known (.expr length (p.fresh 2)) σ₂ p₂ c₃ σ₃ p₃) :
    Emits abi known (.expr (.call c s) r) σ p
      (c₁ ++ (c₂ ++ (c₃ ++ writeCode abi (p.fresh 0) (p.fresh 1) (p.fresh 2) r p₃)))
      σ₃ (((p₃.skip 3).branch 3).goto (p₃.newBlock 2))
  | user {c : Call} {s : Span} {r : Reg} {rs : List Reg} {σ σ' : Scope Storage} {p p' : Point}
      {code : Code} (hop : Builtin.ofHead? c.head = none) (hσ : σ.lookup? c.head = some .function)
      (hknown : known c.head c.args.length)
      (h : Emits abi known (.operands c.args rs) σ p code σ' p') :
    Emits abi known (.expr (.call c s) r) σ p
      (code ++ [.instr (.call r c.head (rs.map .reg))]) σ' p'
  | branch {t : Call} {s : Span} {r : Reg} {op : CompareOp} {x y yes : Expr}
      {σ σ₁ σ₂ : Scope Storage} {p p₁ p₂ : Point} {c₁ c₂ : Code}
      (hop : Builtin.ofHead? t.head = some (.compare op)) (hargs : t.args = [x, y])
      (h₁ : Emits abi known (.test op x y (p.fresh 0)) σ (p.skip 1) c₁ σ₁ p₁)
      (h₂ : Emits abi known (.expr yes (p₁.fresh 0)) σ₁ ((p₁.branch 2).skip 1) c₂ σ₂ p₂) :
    Emits abi known (.expr (.branch t yes none s) r) σ p
      (c₁ ++ .next (.condBr (p.fresh 0) (p₁.newBlock 0) (p₁.newBlock 1)) (p₁.newBlock 0)
        ("if.then." ++ toString p₁.label) ::
        (c₂ ++ [.next (.br (p₁.newBlock 1)) (p₁.newBlock 1) ("if.end." ++ toString p₁.label),
          .instr (.phi r [(.reg (p₁.fresh 0), p₂.current), (.const 0, p₁.current)])]))
      σ₂ (p₂.goto (p₁.newBlock 1))
  | branchElse {t : Call} {s : Span} {r : Reg} {op : CompareOp} {x y yes no : Expr}
      {σ σ₁ σ₂ σ₃ : Scope Storage} {p p₁ p₂ p₃ : Point} {c₁ c₂ c₃ : Code}
      (hop : Builtin.ofHead? t.head = some (.compare op)) (hargs : t.args = [x, y])
      (h₁ : Emits abi known (.test op x y (p.fresh 0)) σ (p.skip 1) c₁ σ₁ p₁)
      (h₂ : Emits abi known (.expr yes (p₁.fresh 0)) σ₁ ((p₁.branch 3).skip 1) c₂ σ₂ p₂)
      (h₃ : Emits abi known (.expr no (p₂.fresh 0)) σ₂ ((p₂.goto (p₁.newBlock 1)).skip 1) c₃ σ₃ p₃) :
    Emits abi known (.expr (.branch t yes (some no) s) r) σ p
      (c₁ ++ .next (.condBr (p.fresh 0) (p₁.newBlock 0) (p₁.newBlock 1)) (p₁.newBlock 0)
        ("if.then." ++ toString p₁.label) ::
        (c₂ ++ .next (.br (p₁.newBlock 2)) (p₁.newBlock 1) ("if.else." ++ toString p₁.label) ::
          (c₃ ++ [.next (.br (p₁.newBlock 2)) (p₁.newBlock 2) ("if.end." ++ toString p₁.label),
            .instr (.phi r [(.reg (p₁.fresh 0), p₂.current), (.reg (p₂.fresh 0), p₃.current)])])))
      σ₃ (p₃.goto (p₁.newBlock 2))
  | spill {e : Expr} {slot : Reg} {σ σ' : Scope Storage} {p p' : Point} {code : Code}
      (h : Emits abi known (.expr e (p.fresh 0)) σ (p.skip 1) code σ' p') :
    Emits abi known (.spill e slot) σ p (code ++ spillCode (p.fresh 0) slot) σ' p'
  | leaf {e : Expr} {r : Reg} {σ σ' : Scope Storage} {p p' : Point} {code : Code}
      (h : Emits abi known (.expr e r) σ p code σ' p') :
    Emits abi known (.tree (.leaf e) r) σ p code σ' p'
  | node {op : ArithOp} {left right : Split Expr} {r : Reg} {σ σ₁ σ₂ : Scope Storage}
      {p p₁ p₂ : Point} {c₁ c₂ : Code}
      (h₁ : Emits abi known (.tree left (p.fresh 0)) σ (p.skip 2) c₁ σ₁ p₁)
      (h₂ : Emits abi known (.tree right (p.fresh 1)) σ₁ p₁ c₂ σ₂ p₂) :
    Emits abi known (.tree (.node op left right) r) σ p
      (c₁ ++ (c₂ ++ [.instr (.binary r op.instruction (.reg (p.fresh 0)) (.reg (p.fresh 1)))])) σ₂ p₂
  | test {op : CompareOp} {x y : Expr} {flag : Reg} {σ σ₁ σ₂ : Scope Storage}
      {p p₁ p₂ : Point} {c₁ c₂ : Code}
      (h₁ : Emits abi known (.expr x (p.fresh 0)) σ (p.skip 2) c₁ σ₁ p₁)
      (h₂ : Emits abi known (.expr y (p.fresh 1)) σ₁ p₁ c₂ σ₂ p₂) :
    Emits abi known (.test op x y flag) σ p
      (c₁ ++ (c₂ ++ [.instr (.icmp flag op.pred (.reg (p.fresh 0)) (.reg (p.fresh 1)))])) σ₂ p₂
  | noOperands (σ : Scope Storage) (p : Point) : Emits abi known (.operands [] []) σ p [] σ p
  | operand {e : Expr} {es : List Expr} {rs : List Reg} {σ σ₁ σ₂ : Scope Storage}
      {p p₁ p₂ : Point} {c₁ c₂ : Code}
      (h₁ : Emits abi known (.expr e (p.fresh 0)) σ (p.skip 1) c₁ σ₁ p₁)
      (h₂ : Emits abi known (.operands es rs) σ₁ p₁ c₂ σ₂ p₂) :
    Emits abi known (.operands (e :: es) (p.fresh 0 :: rs)) σ p (c₁ ++ c₂) σ₂ p₂
  | result {e : Expr} {r : Reg} {σ σ' : Scope Storage} {p p' : Point} {code : Code}
      (h : Emits abi known (.expr e r) σ p code σ' p') :
    Emits abi known (.body [e] r) σ p code σ' p'
  | more {e : Expr} {es : List Expr} {r : Reg} {σ σ₁ σ₂ : Scope Storage} {p p₁ p₂ : Point}
      {c₁ c₂ : Code} (hes : es ≠ []) (h₁ : Emits abi known (.expr e (p.fresh 0)) σ (p.skip 1) c₁ σ₁ p₁)
      (h₂ : Emits abi known (.body es r) σ₁ p₁ c₂ σ₂ p₂) :
    Emits abi known (.body (e :: es) r) σ p (c₁ ++ c₂) σ₂ p₂

def parameterCode (first : Nat) : List String → Code
  | [] => []
  | x :: xs => .instr (.alloca ⟨first⟩) :: .instr (.store (.arg x) ⟨first⟩) :: parameterCode (first + 1) xs

def parameterScope (σ : Scope Storage) (first : Nat) : List String → Scope Storage
  | [] => σ
  | x :: xs => parameterScope (σ.define x (.slot ⟨first⟩)) (first + 1) xs

def OnlyFunctions (σ : Scope Storage) (names : List String) : Prop :=
  ∀ x, σ.lookup? x = if x ∈ names then some .function else none

/-- A function made from a definition: its parameters in slots, then its body, whose result it
returns. -/
structure Compiled (abi : IR.Abi) (known : String → Nat → Prop) (site : Site) (f : IR.Function) : Prop where
  name : f.name = site.definition.name
  params : f.params = site.definition.params
  body : ∃ root code σ p, OnlyFunctions root site.visible ∧
    Emits abi known (.body site.definition.body ⟨site.definition.arity + 1⟩)
      (parameterScope root.push 1 site.definition.params)
      ⟨site.definition.arity + 2, 1, 1, ⟨0⟩⟩ code σ p ∧
    f.blocks = Code.blocks (.ret (.reg ⟨site.definition.arity + 1⟩)) ⟨0⟩ "entry"
      (parameterCode 1 site.definition.params ++ code)

end SmallLisp
