import SmallLisp.Proofs.Outcomes
import SmallLisp.Proofs.TargetIndependence
import SmallLisp.Syntax.Parser

/-! # Layout does not matter

The interpreter keeps whole definitions in its bindings, with their spans, but it only looks at a span to report
it. So an expression with other spans is evaluated alike in an environment with other spans. As the compiler does
not look at them either, programs that differ in their spans alone have the same meaning.
-/
namespace SmallLisp

/-! ## Environments with other spans -/

namespace Scope
variable {α β : Type} (f : α → β)

def map (s : Scope α) : Scope β where
  inner := s.inner.map fun entry => (entry.1, f entry.2)
  outer := s.outer.map fun frame => frame.map fun entry => (entry.1, f entry.2)

theorem lookup?_map (s : Scope α) (x : String) : (s.map f).lookup? x = (s.lookup? x).map f := by
  unfold lookup? map
  rw [← List.map_cons (f := fun frame : List (String × α) => frame.map fun entry => (entry.1, f entry.2)),
    List.findSome?_map]
  induction s.inner :: s.outer with
  | nil => rfl
  | cons frame frames ih =>
    rw [List.findSome?_cons, List.findSome?_cons, ih, Function.comp_apply, lookup_map]
    cases frame.lookup x <;> rfl

theorem map_pop (s : Scope α) : (s.map f).pop = s.pop.map f := by
  obtain ⟨inner, outer⟩ := s
  cases outer <;> rfl

end Scope

def Binding.mapSpans (f : Span → Span) : Binding → Binding
  | .int v => .int v
  | .function d => .function (d.mapSpans f)

def EvalError.mapSpans (f : Span → Span) (e : EvalError) : EvalError := { e with span := f e.span }

/-- What evaluation comes to, with a function applied to the spans of the error and of the environment after it. -/
def outcomeMapSpans {α : Type} (f : Span → Span) (r : Except EvalError α × Env) : Except EvalError α × Env :=
  (r.1.mapError (·.mapSpans f), r.2.map (·.mapSpans f))

def EvalM.Follows {α : Type} (f : Span → Span) (x y : EvalM α) : Prop :=
  ∀ ρ : Env, y (ρ.map (·.mapSpans f)) = (x ρ).map (outcomeMapSpans f)

namespace EvalM.Follows
variable {α β : Type} {f : Span → Span}

theorem pure (v : α) : Follows f (Pure.pure v) (Pure.pure v) := fun _ => rfl

theorem fail (fault : EvalFault) (s : Span) :
    Follows f (EvalM.fail fault s : EvalM α) (EvalM.fail fault (f s)) := fun _ => rfl

theorem diverge : Follows f (EvalM.diverge : EvalM α) EvalM.diverge := fun _ => rfl

theorem define (x : String) (b : Binding) : Follows f (EvalM.define x b) (EvalM.define x (b.mapSpans f)) :=
  fun _ => rfl

theorem bind {x y : EvalM α} {k l : α → EvalM β} (h : Follows f x y) (hk : ∀ v, Follows f (k v) (l v)) :
    Follows f (x >>= k) (y >>= l) := by
  intro ρ
  rw [bind_run, bind_run, h ρ]
  match x ρ with
  | none => rfl
  | some (.ok v, ρ₁) => exact hk v ρ₁
  | some (.error e, ρ₁) => rfl

/-- Reading what a name stands for. -/
theorem get_bind {k l : Env → EvalM α} (h : ∀ ρ, Follows f (k ρ) (l (ρ.map (·.mapSpans f)))) :
    Follows f (get >>= k) (get >>= l) := fun ρ => h ρ ρ

theorem inFrame {x y : EvalM α} (h : Follows f x y) : Follows f (EvalM.inFrame x) (EvalM.inFrame y) := by
  intro ρ
  rw [inFrame_run, inFrame_run]
  change (y (ρ.push.map _)).map _ = _
  rw [h ρ.push, Option.map_map, Option.map_map]
  refine congrArg (Option.map · _) (funext fun r => ?_)
  exact Prod.ext rfl (Scope.map_pop _ r.2)

end EvalM.Follows

/-! ## Expressions -/

open EvalM (Follows)

section Steps
variable {f : Span → Span} {eval : Expr → EvalM Int64} (h : ∀ e, Follows f (eval e) (eval (e.mapSpans f)))
include h

theorem mapM_follows (es : List Expr) : Follows f (es.mapM eval) ((es.map (·.mapSpans f)).mapM eval) := by
  induction es with
  | nil => exact .pure []
  | cons e es ih =>
    rw [List.map_cons, List.mapM_cons, List.mapM_cons]
    exact (h e).bind fun v => ih.bind fun vs => .pure _

theorem evalSequence_follows (es : List Expr) :
    Follows f (evalSequence eval es) (evalSequence eval (es.map (·.mapSpans f))) := by
  rw [evalSequence_eq, evalSequence_eq]
  exact (mapM_follows h es).bind fun vs => .pure _

theorem Call.evalArith_follows (op : ArithOp) (c : Call) :
    Follows f (c.evalArith eval op) ((c.mapSpans f).evalArith eval op) := by
  rw [Call.mapSpans_eq]
  unfold Call.evalArith
  cases c.args with
  | nil => exact .fail _ _
  | cons e es =>
    refine (h e).bind fun v => (mapM_follows h es).bind fun vs => ?_
    cases op.fold v vs with
    | ok result => exact .pure result
    | error i =>
      have hspan : ((es.map (·.mapSpans f))[i]?.map Expr.span).getD (f c.span) =
          f ((es[i]?.map Expr.span).getD c.span) := by
        rw [List.getElem?_map]
        cases es[i]? with
        | none => rfl
        | some e => exact Expr.span_mapSpans f e
      dsimp only
      rw [hspan]
      exact .fail _ _

theorem Call.evalCompare_follows (op : CompareOp) (c : Call) :
    Follows f (c.evalCompare eval op) ((c.mapSpans f).evalCompare eval op) := by
  rw [Call.mapSpans_eq]
  unfold Call.evalCompare
  match c.args with
  | [] | [_] => exact .fail _ _
  | [x, y] => exact (h x).bind fun a => (h y).bind fun b => .pure _
  | _ :: _ :: _ :: es =>
    simp
    exact .fail _ _

theorem Call.evalUser_follows (c : Call) : Follows f (c.evalUser eval) ((c.mapSpans f).evalUser eval) := by
  rw [Call.mapSpans_eq]
  refine .get_bind fun ρ => ?_
  rw [Scope.lookup?_map]
  cases ρ.lookup? c.head with
  | none => exact .fail _ _
  | some b =>
    cases b with
    | int v => exact .fail _ _
    | function d =>
      simp only [Option.map_some, Binding.mapSpans, Definition.mapSpans_eq, List.length_map]
      change Follows f (if d.arity = _ then _ else _) (if d.arity = _ then _ else _)
      split
      · refine (mapM_follows h c.args).bind fun vs => .inFrame (.bind ?_ fun _ => evalSequence_follows h d.body)
        generalize d.params.zip vs = bindings
        induction bindings with
        | nil => exact .pure ()
        | cons b bs ih => exact (Follows.define b.1 (.int b.2)).bind fun _ => ih
      · exact .fail _ _

theorem Call.eval_follows (c : Call) : Follows f (c.eval eval) ((c.mapSpans f).eval eval) := by
  have harith := fun op => c.evalArith_follows h op
  have hcompare := fun op => c.evalCompare_follows h op
  have huser := c.evalUser_follows h
  rw [Call.mapSpans_eq] at *
  unfold Call.eval
  dsimp only
  split
  · exact harith _
  · exact (hcompare _).bind fun b => .pure _
  · exact .fail _ _
  · exact huser

theorem Expr.evalStep_follows (e : Expr) : Follows f (e.evalStep eval) ((e.mapSpans f).evalStep eval) := by
  cases e with
  | int v s => exact .pure v
  | name x s =>
    refine .get_bind fun ρ => ?_
    rw [Scope.lookup?_map]
    cases ρ.lookup? x with
    | none => exact .fail _ _
    | some b =>
      cases b with
      | int v => exact .pure v
      | function d => exact .fail _ _
  | ref e s => exact .fail _ _
  | call c s => exact c.eval_follows h
  | define d s =>
    have hbody := evalSequence_follows h d.body
    have hdefine := Follows.define (f := f) d.name (.function d)
    rw [Binding.mapSpans] at hdefine
    rw [Expr.mapSpans]
    cases d with
    | mk name params body span =>
      rw [Definition.mapSpans, mapSpansEach_eq_map] at *
      refine hdefine.bind fun _ => ?_
      change Follows f (if name == "main" then _ else _) (if name == "main" then _ else _)
      split
      · exact hbody
      · exact .pure 0
  | branch t y n s =>
    have hcompare := fun op => t.evalCompare_follows h op
    rw [Expr.mapSpans_branch, evalStep_branch, evalStep_branch, Call.mapSpans_eq] at *
    cases Builtin.ofHead? t.head with
    | none => exact .fail _ _
    | some op =>
      cases op with
      | compare op =>
        refine (hcompare op).bind fun b => ?_
        cases b
        · cases n with
          | none => exact .pure 0
          | some e => exact h e
        · exact h y
      | arith op => exact .fail _ _
      | sysWrite => exact .fail _ _

end Steps

theorem Expr.eval_follows (f : Span → Span) (n : Nat) (e : Expr) :
    Follows f (e.eval n) ((e.mapSpans f).eval n) := by
  induction n generalizing e with
  | zero => exact .diverge
  | succ n ih => exact e.evalStep_follows ih

/-- A program with other spans has the outcome that it has with its own, with its error elsewhere. -/
theorem interpret_mapSpans (f : Span → Span) (depth : Nat) (program : List Expr) :
    interpret depth (program.map (·.mapSpans f)) =
      (interpret depth program).map (·.mapError (·.mapSpans f)) := by
  have h : evalProgram depth (program.map (·.mapSpans f)) Scope.empty =
      (evalProgram depth program Scope.empty).map (outcomeMapSpans f) :=
    evalSequence_follows (Expr.eval_follows f depth) program Scope.empty
  rw [interpret, interpret, h, Option.map_map, Option.map_map]
  rfl

/-- The compiler makes the same module of a program with other spans, or fails with its error elsewhere. -/
theorem compile_mapSpans (f : Span → Span) (abi : IR.Abi) (name : String) (program : List Expr) :
    compile abi name (program.map (·.mapSpans f)) = (compile abi name program).mapError (·.mapSpans f) := by
  rw [compile_recast f abi abi, ← compile_map_retarget]

/-! ## Programs without spans -/

def CompileError.bare (e : CompileError) : CompileError := e.mapSpans fun _ => default

section Bare
variable (program : List Expr)

theorem map_mapSpans_default : program.map (·.mapSpans fun _ => default) = program.map Expr.bare :=
  List.map_congr_left fun e _ => e.mapSpans_default

theorem interpret_bare (depth : Nat) : (interpret depth (program.map Expr.bare)).map (·.mapError (·.fault)) =
    (interpret depth program).map (·.mapError (·.fault)) := by
  rw [← map_mapSpans_default, interpret_mapSpans, Option.map_map]
  refine congrArg (Option.map · _) (funext fun result => ?_)
  cases result <;> rfl

theorem compile_bare (abi : IR.Abi) (name : String) :
    compile abi name (program.map Expr.bare) = (compile abi name program).mapError (·.bare) := by
  rw [← map_mapSpans_default, compile_mapSpans]
  rfl

end Bare

/-- Programs that are equal without their spans have the same outcome, be it a value or a fault, which may have
arisen in different places, and they are compiled to the same module or fail with the same error without its
spans. -/
theorem outcomes_eq_of_bare_eq {p q : List Expr} (h : p.map Expr.bare = q.map Expr.bare) :
    (∀ depth, (interpret depth p).map (·.mapError (·.fault)) = (interpret depth q).map (·.mapError (·.fault))) ∧
      ∀ abi name, (compile abi name p).mapError (·.bare) = (compile abi name q).mapError (·.bare) := by
  constructor
  · intro depth
    rw [← interpret_bare p, h, interpret_bare q]
  · intro abi name
    rw [← compile_bare p, h, compile_bare q]

/-- The program `(def main () (/ 1 0))` with its quotient at an offset. -/
def dividingProgram (n : Nat) : List Expr :=
  [.define ⟨"main", [],
    [.call ⟨"/", [.int 1 ⟨n + 3, n + 4⟩, .int 0 ⟨n + 5, n + 6⟩], ⟨n, n + 7⟩⟩ ⟨n, n + 7⟩],
    ⟨0, n + 8⟩⟩ ⟨0, n + 8⟩]

/-- On a line of its own the quotient fails elsewhere, and alike. -/
theorem outcomes_eq_of_bare_eq_dividingProgram :
    parse "(def main () (/ 1 0))" = .ok (dividingProgram 13) ∧
      parse "(def main ()\n  (/ 1 0))" = .ok (dividingProgram 15) ∧
      (dividingProgram 13).map Expr.bare = (dividingProgram 15).map Expr.bare ∧
      interpret 3 (dividingProgram 13) = some (.error ⟨.divisionByZero, ⟨18, 19⟩⟩) ∧
      (∀ depth, (interpret depth (dividingProgram 13)).map (·.mapError (·.fault)) =
        (interpret depth (dividingProgram 15)).map (·.mapError (·.fault))) ∧
      ∀ abi name, (compile abi name (dividingProgram 13)).mapError (·.bare) =
        (compile abi name (dividingProgram 15)).mapError (·.bare) := by
  have hbare : (dividingProgram 13).map Expr.bare = (dividingProgram 15).map Expr.bare := rfl
  exact ⟨rfl, rfl, hbare, rfl, outcomes_eq_of_bare_eq hbare⟩

end SmallLisp
