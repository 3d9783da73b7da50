import SmallLisp.Proofs.CodeOrder
import SmallLisp.Proofs.EmissionUnique

/-! # Arguments in the code of arithmetic

The code of a tree is a line for each argument: the argument's own code, and then the operations that have
both of their operands by that time. Between two arguments there is nothing else, so it is clear where each
of them begins.
-/
namespace SmallLisp
open IR (Reg BlockId Operand Instr Item Code Place)

/-- An argument in the code of a call: the register for its value, its own code, and the operations that are
done before the next argument. -/
structure Argument where
  result : Reg
  code : Code
  operations : List Instr

namespace Argument

def line (a : Argument) : Code := a.code ++ a.operations.map Item.instr

def followed (a : Argument) (i : Instr) : Argument := { a with operations := a.operations ++ [i] }

def lines (args : List Argument) : Code := args.flatMap line

/-- The places where arguments begin, in a block `id` and before `rest`. -/
def beginnings (rest : Code) : BlockId → List Argument → List Place
  | _, [] => []
  | id, a :: as => (id, Code.instrs (lines (a :: as) ++ rest)) :: beginnings rest (Code.last id a.line) as

variable (a : Argument) (i : Instr) (as bs : List Argument) (rest : Code) (id : BlockId)

@[simp] theorem line_followed : (a.followed i).line = a.line ++ [.instr i] := by simp [line, followed]

@[simp] theorem lines_nil : lines [] = [] := rfl

@[simp] theorem lines_cons : lines (a :: as) = a.line ++ lines as := rfl

theorem lines_singleton (r : Reg) (code : Code) : lines [⟨r, code, []⟩] = code := by simp [line]

@[simp] theorem lines_append : lines (as ++ bs) = lines as ++ lines bs := List.flatMap_append

@[simp] theorem length_beginnings : (beginnings rest id as).length = as.length := by
  induction as generalizing id with
  | nil => rfl
  | cons a as ih => exact congrArg (· + 1) (ih _)

theorem beginnings_append : beginnings rest id (as ++ bs) =
    beginnings (lines bs ++ rest) id as ++ beginnings rest (Code.last id (lines as)) bs := by
  induction as generalizing id with
  | nil => rfl
  | cons a as ih =>
    rw [List.cons_append, beginnings, ih, beginnings, List.cons_append, lines_cons a as, Code.last_append]
    simp

/-- An operation after the last argument can be seen as what comes after the arguments. -/
theorem beginnings_followed : beginnings rest id (as ++ [a.followed i]) =
    beginnings (.instr i :: rest) id (as ++ [a]) := by
  rw [beginnings_append, beginnings_append]
  simp [beginnings]

/-- Arguments begin in the order of the layout, all of them before what comes after them. -/
theorem exists_marks {E : Setting} {before : Code} (hcode : E.code = before ++ (lines as ++ rest)) :
    ∀ x ∈ beginnings rest (before.last ⟨0⟩) as,
      ∃ c, E.Marks c x ∧ c.length ≤ (lines as ++ rest).length := by
  induction as generalizing before with
  | nil => exact nofun
  | cons a as ih =>
    intro x hx
    rcases List.mem_cons.mp hx with rfl | hx
    · exact ⟨_, ⟨before, hcode, rfl⟩, Nat.le_refl _⟩
    · rw [lines_cons, List.append_assoc, ← List.append_assoc] at hcode
      rw [← Code.last_append] at hx
      obtain ⟨c, hc, hle⟩ := ih hcode x hx
      refine ⟨c, hc, Nat.le_trans hle ?_⟩
      simp

theorem pairwise_beginnings {E : Setting} {before : Code} (hcode : E.code = before ++ (lines as ++ rest))
    (hlines : ∀ a ∈ as, a.line ≠ []) : (beginnings rest (before.last ⟨0⟩) as).Pairwise E.Precedes := by
  induction as generalizing before with
  | nil => exact .nil
  | cons a as ih =>
    obtain ⟨hline, hlines⟩ := List.forall_mem_cons.mp hlines
    have hrest := hcode
    rw [lines_cons, List.append_assoc, ← List.append_assoc] at hrest
    refine .cons (fun x hx => ?_) ?_
    · rw [← Code.last_append] at hx
      obtain ⟨c, hc, hle⟩ := exists_marks as rest hrest x hx
      have hpos := List.length_pos_iff.mpr hline
      refine ⟨_, c, ⟨before, hcode, rfl⟩, hc, Nat.lt_of_le_of_lt hle ?_⟩
      simp
      omega
    · rw [← Code.last_append]
      exact ih hrest hlines

end Argument

def ArithOp.operation (op : ArithOp) (r : Reg) (p : Point) : Instr :=
  .binary r op.instruction (.reg (p.fresh 0)) (.reg (p.fresh 1))

/-- The arguments in the code of a tree, from the first to the last. -/
inductive Arranged (abi : IR.Abi) (known : String → Nat → Prop) :
    Split Expr → Reg → Scope Storage → Point → List Argument → Scope Storage → Point → Prop
  | leaf {e : Expr} {r : Reg} {σ σ' : Scope Storage} {p p' : Point} {code : Code}
      (h : Emits abi known (.expr e r) σ p code σ' p') :
    Arranged abi known (.leaf e) r σ p [⟨r, code, []⟩] σ' p'
  | node {op : ArithOp} {left right : Split Expr} {r : Reg} {σ σ₁ σ₂ : Scope Storage} {p p₁ p₂ : Point}
      {as : List Argument} (bs : List Argument) {b : Argument}
      (h₁ : Arranged abi known left (p.fresh 0) σ (p.skip 2) as σ₁ p₁)
      (h₂ : Arranged abi known right (p.fresh 1) σ₁ p₁ (bs ++ [b]) σ₂ p₂) :
    Arranged abi known (.node op left right) r σ p
      (as ++ (bs ++ [b.followed (op.operation r p)])) σ₂ p₂

section Arrangement
variable {abi : IR.Abi} {known : String → Nat → Prop} {t : Split Expr} {r : Reg} {σ σ' : Scope Storage}
  {p p' : Point} {args : List Argument} {code : Code}

theorem Emits.code_ne_nil {e : Expr} (h : Emits abi known (.expr e r) σ p code σ' p') : code ≠ [] := by
  rintro rfl
  cases h.results_subset (r := r) (by simp)

theorem Emits.exists_arranged (h : Emits abi known (.tree t r) σ p code σ' p') :
    ∃ args, args ≠ [] ∧ code = Argument.lines args ∧ Arranged abi known t r σ p args σ' p' := by
  induction t generalizing r σ p code σ' p' with
  | leaf e =>
    cases h with
    | leaf h => exact ⟨_, List.cons_ne_nil _ _, (Argument.lines_singleton r code).symm, .leaf h⟩
  | node op left right ihl ihr =>
    cases h with
    | node h₁ h₂ =>
      obtain ⟨as, -, rfl, has⟩ := ihl h₁
      obtain ⟨bs, hne, rfl, hbs⟩ := ihr h₂
      obtain ⟨init, b, rfl⟩ : ∃ init b, bs = init ++ [b] := ⟨_, _, (List.dropLast_append_getLast hne).symm⟩
      exact ⟨_, by simp, by simp [ArithOp.operation], .node _ has hbs⟩

theorem Arranged.emits (h : Arranged abi known t r σ p args σ' p') :
    Emits abi known (.tree t r) σ p (Argument.lines args) σ' p' := by
  induction h with
  | leaf h =>
    rw [Argument.lines_singleton]
    exact .leaf h
  | @node op left right r _ _ _ p _ _ as bs b _ _ ih₁ ih₂ =>
    have hnode : Emits abi known (.tree (.node op left right) r) _ p _ _ _ := .node ih₁ ih₂
    simpa [ArithOp.operation] using hnode

theorem Arranged.length_eq (h : Arranged abi known t r σ p args σ' p') : args.length = t.leaves.length := by
  induction h with
  | leaf => rfl
  | node _ _ _ ih₁ ih₂ => simp_all [Split.leaves]

/-- An argument has the register of the tree for its value, or a register of the code's own. -/
theorem Arranged.result_fresh (h : Arranged abi known t r σ p args σ' p') :
    ∀ a ∈ args, a.result = r ∨ p.reg ≤ a.result.index ∧ a.result.index < p'.reg := by
  induction h with
  | leaf => exact List.forall_mem_singleton.mpr (.inl rfl)
  | @node op left right r σ σ₁ σ₂ p p₁ p₂ as bs b h₁ h₂ ih₁ ih₂ =>
    have hreg₁ := h₁.emits.before.reg
    have hreg₂ := h₂.emits.before.reg
    rw [Point.skip_reg] at hreg₁
    have hside : ∀ (a : Argument) {i : Nat} {q q' : Point}, i < 2 → p.reg ≤ q.reg → p.reg + 2 ≤ q'.reg →
        q'.reg ≤ p₂.reg → a.result = p.fresh i ∨ q.reg ≤ a.result.index ∧ a.result.index < q'.reg →
        a.result = r ∨ p.reg ≤ a.result.index ∧ a.result.index < p₂.reg := by
      intro a i q q' hi hq hq' hle ha
      right
      rcases ha with ha | ha
      · rw [ha, Point.fresh_index]
        omega
      · omega
    rw [List.forall_mem_append, List.forall_mem_singleton] at ih₂
    rw [List.forall_mem_append, List.forall_mem_append, List.forall_mem_singleton]
    refine ⟨fun a ha => ?_, fun a ha => ?_, ?_⟩
    · exact hside a (by omega) (by simp) hreg₁ hreg₂ (ih₁ a ha)
    · exact hside a (by omega) (by omega) (by omega) (Nat.le_refl _) (ih₂.1 a ha)
    · exact hside _ (by omega) (by omega) (by omega) (Nat.le_refl _) ih₂.2

theorem Arranged.result_lt (h : Arranged abi known t r σ p args σ' p') (hr : r.index < p'.reg) :
    ∀ a ∈ args, a.result.index < p'.reg := by
  intro a ha
  rcases h.result_fresh a ha with he | he
  · rwa [he]
  · exact he.2

theorem Arranged.result_ne (h : Arranged abi known t r σ p args σ' p') {x : Reg} (hx : x.index < p.reg)
    (hne : x ≠ r) : ∀ a ∈ args, a.result ≠ x := by
  rintro a ha rfl
  rcases h.result_fresh a ha with he | he
  · exact hne he
  · omega

theorem Arranged.line_ne_nil (h : Arranged abi known t r σ p args σ' p') : ∀ a ∈ args, a.line ≠ [] := by
  induction h with
  | leaf h =>
    refine List.forall_mem_singleton.mpr ?_
    simpa [Argument.line] using h.code_ne_nil
  | node _ _ _ ih₁ ih₂ =>
    rw [List.forall_mem_append] at ih₂
    exact List.forall_mem_append.mpr ⟨ih₁, List.forall_mem_append.mpr ⟨ih₂.1, by simp⟩⟩

/-- The arrangement of a tree is determined by the slots of the scope and the point. -/
theorem Arranged.unique {known' : String → Nat → Prop} {τ τ' : Scope Storage} {q' : Point} {args' : List Argument}
    (h : Arranged abi known t r σ p args σ' p') (h' : Arranged abi known' t r τ p args' τ' q')
    (hs : SameSlots σ τ) : args' = args ∧ q' = p' ∧ SameSlots σ' τ' := by
  induction h generalizing τ args' τ' q' with
  | leaf h =>
    cases h' with
    | leaf h' =>
      obtain ⟨-, rfl, rfl, hs⟩ := h.unique h' rfl hs
      exact ⟨rfl, rfl, hs⟩
  | node _ _ _ ih₁ ih₂ =>
    cases h' with
    | node bs h₁ h₂ =>
      obtain ⟨rfl, rfl, hs⟩ := ih₁ h₁ hs
      obtain ⟨hright, rfl, hs⟩ := ih₂ h₂ hs
      obtain ⟨rfl, hlast⟩ := List.append_inj' hright rfl
      cases hlast
      exact ⟨rfl, rfl, hs⟩

end Arrangement

end SmallLisp
