import SmallLisp.Eval.Interpreter
import SmallLisp.Proofs.Meaning

/-! # Outcomes of the interpreter

What is said of the interpreter is said of every outcome of a step: of values with the environment after
them, and of division by zero. Steps in sequence are put together, and lists of expressions are evaluated
in one way whatever they are the operands of.
-/
namespace SmallLisp
open EvalM

def Outcomes {α : Type} (step : EvalM α) (ρ : Env) (value : α → Env → Prop) (zeroDivisor : Prop) : Prop :=
  ∀ result ρ', step ρ = some (result, ρ') → match result with
    | .ok v => value v ρ'
    | .error e => e.fault = .divisionByZero → zeroDivisor

namespace EvalM
variable {α β : Type}

theorem bind_run (x : EvalM α) (f : α → EvalM β) (ρ : Env) : (x >>= f) ρ = match x ρ with
    | none => none
    | some (.ok a, ρ') => f a ρ'
    | some (.error e, ρ') => some (.error e, ρ') := by
  change Option.bind (x ρ) (fun p => ExceptT.bindCont f p.1 p.2) = _
  match x ρ with
  | none | some (.ok a, ρ') | some (.error e, ρ') => rfl

/-- Steps in sequence end with the second, in the environment that the first leaves, or at a fault of the first. -/
theorem bind_cases {x : EvalM α} {f : α → EvalM β} {ρ ρ' : Env} {result : Except EvalError β}
    (h : (x >>= f) ρ = some (result, ρ')) :
    (∃ a ρ₁, x ρ = some (.ok a, ρ₁) ∧ f a ρ₁ = some (result, ρ')) ∨
    ∃ e, x ρ = some (.error e, ρ') ∧ result = .error e := by
  rw [bind_run] at h
  match hx : x ρ with
  | none =>
    rw [hx] at h
    cases h
  | some (.ok a, ρ₁) =>
    rw [hx] at h
    exact .inl ⟨a, ρ₁, rfl, h⟩
  | some (.error e, ρ₁) =>
    rw [hx] at h
    cases h
    exact .inr ⟨e, rfl, rfl⟩

theorem inFrame_run (step : EvalM α) (ρ : Env) :
    inFrame step ρ = (step ρ.push).map fun r => (r.1, r.2.pop) := by
  simp only [inFrame, ExceptT.mk, ExceptT.run]
  cases step ρ.push with
  | none => rfl
  | some r => rfl

end EvalM

namespace Outcomes
variable {α β : Type} {x : EvalM α} {f : α → EvalM β} {ρ : Env} {mid : α → Env → Prop}
  {value : β → Env → Prop} {bad bad' : Prop}

theorem bind (hx : Outcomes x ρ mid bad) (hbad : bad → bad')
    (hf : ∀ v ρ', mid v ρ' → Outcomes (f v) ρ' value bad') : Outcomes (x >>= f) ρ value bad' := by
  intro result ρ' h
  rcases bind_cases h with ⟨a, ρ₁, hxρ, h⟩ | ⟨e, hxρ, rfl⟩
  · exact hf a ρ₁ (hx _ _ hxρ) result ρ' h
  · exact fun he => hbad (hx _ _ hxρ he)

theorem pure {v : β} (h : value v ρ) : Outcomes (pure v) ρ value bad := by
  rintro _ _ ⟨⟩
  exact h

/-- A fault other than a zero divisor is of no concern. -/
theorem fail {fault : EvalFault} (h : fault = .divisionByZero → bad) (span : Span) :
    Outcomes (EvalM.fail fault span : EvalM β) ρ value bad := by
  rintro _ _ ⟨⟩
  exact h

theorem get {f : Env → EvalM β} (h : Outcomes (f ρ) ρ value bad) :
    Outcomes ((MonadState.get : EvalM Env) >>= f) ρ value bad := h

/-- A step in a new frame. -/
theorem inFrame {step : EvalM β} (h : Outcomes step ρ.push (fun v ρ' => value v ρ'.pop) bad) :
    Outcomes (EvalM.inFrame step) ρ value bad := by
  intro result ρ' hr
  rw [inFrame_run] at hr
  obtain ⟨⟨result, after⟩, hs, he⟩ := Option.map_eq_some_iff.mp hr
  cases he
  exact h _ _ hs

theorem diverge : Outcomes (EvalM.diverge : EvalM β) ρ value bad := nofun

end Outcomes

/-! ## Lists of expressions -/

section Lists
variable {eval : Expr → EvalM Int64}

theorem evalSequence_eq (es : List Expr) : evalSequence eval es = (do
    let vs ← es.mapM eval
    return vs.getLastD 0) := by
  unfold evalSequence
  generalize (0 : Int64) = default
  induction es generalizing default with
  | nil => rfl
  | cons e es ih =>
    rw [List.foldlM_cons, List.mapM_cons]
    simp only [ih, bind_assoc, pure_bind, List.getLastD_cons]

theorem evalSequence_singleton (e : Expr) : evalSequence eval [e] = eval e := by
  simp only [evalSequence, List.foldlM_cons, List.foldlM_nil, bind_pure]

theorem evalArith_eq (op : ArithOp) {c : Call} (h : c.args ≠ []) : c.evalArith eval op = (do
    match ← c.args.mapM eval with
    | [] => EvalM.fail (.wrongArity c.head (.atLeast 1) 0) c.span
    | v :: vs =>
      match op.fold v vs with
      | .ok result => return result
      | .error i => EvalM.fail .divisionByZero ((c.args.tail[i]?.map Expr.span).getD c.span)) := by
  unfold Call.evalArith
  match c.args, h with
  | e :: es, _ =>
    rw [List.mapM_cons, bind_assoc]
    refine bind_congr fun v => ?_
    rw [bind_assoc]
    refine bind_congr fun vs => ?_
    exact (pure_bind _ _).symm

theorem evalCompare_eq (op : CompareOp) {c : Call} {x y : Expr} (h : c.args = [x, y]) :
    c.evalCompare eval op = (do
      match ← [x, y].mapM eval with
      | [a, b] => return op.holds a b
      | _ => EvalM.fail (.wrongArity c.head (.exactly 2) 2) c.span) := by
  unfold Call.evalCompare
  rw [h]
  simp only [List.mapM_cons, List.mapM_nil, bind_assoc, pure_bind]

theorem evalStep_branch (test : Call) (yes : Expr) (no : Option Expr) (span : Span) :
    (Expr.branch test yes no span).evalStep eval = match Builtin.ofHead? test.head with
      | some (.compare op) => do
        if ← test.evalCompare eval op then eval yes
        else match no with
          | some e => eval e
          | none => return 0
      | _ => EvalM.fail (.typeMismatch .comparison .plainCall) test.span := rfl

end Lists

/-! ## Computations that stop at a zero divisor -/

namespace Run

/-- Of several computations one stops at a zero divisor, after others that have values. -/
def Stops (xs : List (Run Int64)) : Prop :=
  ∃ (vs : List Int64) (rest : List (Run Int64)), xs = vs.map pure ++ throw .zeroDivisor :: rest

theorem throw_bind {α β : Type} (e : Halt) (f : α → Run β) : (throw e : Run α) >>= f = throw e := rfl

section Values
variable (op : ArithOp)

theorem foldl_arith_throw (xs : List (Run Int64)) (e : Halt) : xs.foldl (arith op) (throw e) = throw e := by
  induction xs with
  | nil => rfl
  | cons x xs ih => exact ih

theorem foldl_arith_pure (v : Int64) (vs : List Int64) :
    (vs.map pure).foldl (arith op) (pure v) = match op.fold v vs with
      | .ok w => pure w
      | .error _ => throw .zeroDivisor := by
  induction vs generalizing v with
  | nil => rfl
  | cons a as ih =>
    rw [List.map_cons, List.foldl_cons, ArithOp.fold]
    cases hv : op.apply v a with
    | none =>
      have harith : arith op (pure v) (pure a) = throw .zeroDivisor := by
        simp only [arith, pure_bind, hv]
      rw [harith]
      exact foldl_arith_throw op _ _
    | some w =>
      have harith : arith op (pure v) (pure a) = pure w := by
        simp only [arith, pure_bind, hv]
      rw [harith]
      simp only [ih]
      cases op.fold w as <;> rfl

/-- Operands that have values are folded. -/
theorem arithmetic_pure (v : Int64) (vs : List Int64) :
    arithmetic op ((v :: vs).map pure) = match op.fold v vs with
      | .ok w => pure w
      | .error _ => throw .zeroDivisor := foldl_arith_pure op v vs

theorem arithmetic_stops {xs : List (Run Int64)} (h : Stops xs) : arithmetic op xs = throw .zeroDivisor := by
  obtain ⟨vs, rest, rfl⟩ := h
  cases vs with
  | nil => exact foldl_arith_throw op rest _
  | cons v vs =>
    change (vs.map pure ++ throw Halt.zeroDivisor :: rest).foldl (arith op) (pure v) = _
    rw [List.foldl_append, foldl_arith_pure, List.foldl_cons]
    cases op.fold v vs <;> exact foldl_arith_throw op rest _

end Values

theorem inOrder_pure (vs : List Int64) : inOrder (vs.map pure) = pure vs := by
  induction vs with
  | nil => rfl
  | cons v vs ih => simp only [List.map_cons, inOrder, ih, pure_bind]

theorem inOrder_stops {xs : List (Run Int64)} (h : Stops xs) : inOrder xs = throw .zeroDivisor := by
  obtain ⟨vs, rest, rfl⟩ := h
  induction vs with
  | nil => rfl
  | cons v vs ih =>
    rw [List.map_cons, List.cons_append, inOrder, pure_bind, ih]
    rfl

/-- The last of several computations is the last of their values. -/
theorem last_eq {xs : List (Run Int64)} (h : xs ≠ []) : last xs = (do
    let vs ← inOrder xs
    return vs.getLastD 0) := by
  generalize (0 : Int64) = default
  induction xs generalizing default with
  | nil => exact absurd rfl h
  | cons x xs ih =>
    cases xs with
    | nil => simp [last, inOrder]
    | cons y ys =>
      rw [last, inOrder]
      simp only [bind_assoc, pure_bind, List.getLastD_cons]
      exact bind_congr fun v => ih (List.cons_ne_nil y ys) v

theorem compare_eq (op : CompareOp) (x y : Run Int64) : compare op [x, y] = (do
    match ← inOrder [x, y] with
    | [a, b] => return op.holds a b
    | _ => throw .illFormed) := by
  simp only [compare, inOrder, bind_assoc, pure_bind]

end Run
end SmallLisp
