import SmallLisp.Proofs.Depth
import SmallLisp.Proofs.Environment

/-! # Sessions

Several programs may be run in turn on one scope of globals. A program finds the globals that others left
only where it would find nothing by itself, so they have no part in an outcome other than an unbound name:
every look-up that succeeds alone finds the same binding in the session. Steps that are so are put together
from steps that are so, and calls leave no binding behind.
-/
namespace SmallLisp

def Unbound {α : Type} (result : Except EvalError α) : Prop := ∃ x s, result = .error ⟨.unboundName x, s⟩

namespace Scope
variable {ρ ρ' : Env}

def Within (ρ ρ' : Env) : Prop := ∀ x b, ρ.lookup? x = some b → ρ'.lookup? x = some b

theorem empty_within (ρ : Env) : Within empty ρ := by
  intro x b h
  rw [lookup?_empty] at h
  cases h

namespace Within

theorem define (h : ρ.Within ρ') (x : String) (b : Binding) : (ρ.define x b).Within (ρ'.define x b) := by
  intro y c hy
  by_cases hxy : y = x
  · rw [hxy, lookup?_define_self] at hy ⊢
    exact hy
  · rw [lookup?_define_ne _ _ hxy] at hy ⊢
    exact h y c hy

theorem push (h : ρ.Within ρ') : ρ.push.Within ρ'.push := by
  intro x b hx
  rw [lookup?_push] at hx ⊢
  exact h x b hx

end Within
end Scope

/-! ## Steps -/

/-- A step that adds bindings to the innermost frame alone, and that ends alike in every environment with the
bindings of one in which it ends without an unbound name. -/
structure Steady {α : Type} (step : EvalM α) : Prop where
  grows : ∀ {ρ result ρ₁}, step ρ = some (result, ρ₁) → ρ.Extends ρ₁
  again : ∀ {ρ ρ' result ρ₁}, ρ.Within ρ' → step ρ = some (result, ρ₁) → ¬ Unbound result →
    ∃ ρ₁', step ρ' = some (result, ρ₁') ∧ ρ₁.Within ρ₁'

namespace Steady
variable {α β : Type}

theorem pure (v : α) : Steady (Pure.pure v : EvalM α) := by
  refine ⟨?_, ?_⟩
  · rintro ρ _ _ ⟨⟩
    exact .refl ρ
  · rintro ρ ρ' _ _ h ⟨⟩ -
    exact ⟨ρ', rfl, h⟩

theorem fail (fault : EvalFault) (span : Span) : Steady (EvalM.fail fault span : EvalM α) := by
  refine ⟨?_, ?_⟩
  · rintro ρ _ _ ⟨⟩
    exact .refl ρ
  · rintro ρ ρ' _ _ h ⟨⟩ -
    exact ⟨ρ', rfl, h⟩

theorem diverge : Steady (EvalM.diverge : EvalM α) := ⟨nofun, nofun⟩

theorem define (x : String) (b : Binding) : Steady (EvalM.define x b) := by
  refine ⟨?_, ?_⟩
  · rintro ρ _ _ ⟨⟩
    exact .define ρ x b
  · rintro ρ ρ' _ _ h ⟨⟩ -
    exact ⟨ρ'.define x b, rfl, h.define x b⟩

theorem bind {step : EvalM α} {f : α → EvalM β} (h : Steady step) (hf : ∀ v, Steady (f v)) :
    Steady (step >>= f) := by
  refine ⟨fun {ρ result ρ₂} hr => ?_, fun {ρ ρ' result ρ₂} hw hr hb => ?_⟩
  · rcases EvalM.bind_cases hr with ⟨v, ρ₁, hs, hr⟩ | ⟨e, hs, -⟩
    · exact (h.grows hs).trans ((hf v).grows hr)
    · exact h.grows hs
  · rcases EvalM.bind_cases hr with ⟨v, ρ₁, hs, hr⟩ | ⟨e, hs, rfl⟩
    · obtain ⟨ρ₁', hs', hw₁⟩ := h.again hw hs nofun
      rw [EvalM.bind_run, hs']
      exact (hf v).again hw₁ hr hb
    · have hb' : ¬ Unbound (.error e : Except EvalError α) := by
        rintro ⟨x, s, he⟩
        cases he
        exact hb ⟨x, s, rfl⟩
      obtain ⟨ρ₁', hs', hw₁⟩ := h.again hw hs hb'
      rw [EvalM.bind_run, hs']
      exact ⟨ρ₁', rfl, hw₁⟩

/-- A step that reads no more of the environment than what one name is bound to. -/
theorem lookup {x : String} {span : Span} {f : Env → EvalM α}
    (hsame : ∀ ρ ρ' : Env, ρ.lookup? x = ρ'.lookup? x → f ρ = f ρ')
    (hnone : ∀ ρ : Env, ρ.lookup? x = none → f ρ = EvalM.fail (.unboundName x) span)
    (hsome : ∀ ρ : Env, ρ.lookup? x ≠ none → Steady (f ρ)) : Steady ((MonadState.get : EvalM Env) >>= f) := by
  refine ⟨fun {ρ result ρ₁} (hr : f ρ ρ = _) => ?_, fun {ρ ρ' result ρ₁} hw (hr : f ρ ρ = _) hb => ?_⟩
  · by_cases hx : ρ.lookup? x = none
    · rw [hnone ρ hx] at hr
      exact (fail _ span).grows hr
    · exact (hsome ρ hx).grows hr
  · by_cases hx : ρ.lookup? x = none
    · rw [hnone ρ hx] at hr
      cases hr
      exact absurd ⟨x, span, rfl⟩ hb
    · obtain ⟨b, hb'⟩ := Option.ne_none_iff_exists'.mp hx
      change ∃ ρ₁', f ρ' ρ' = some (result, ρ₁') ∧ ρ₁.Within ρ₁'
      rw [← hsame ρ ρ' (hb'.trans (hw x b hb').symm)]
      exact (hsome ρ hx).again hw hr hb

/-- A frame is dropped with everything that was bound in it. -/
theorem inFrame {step : EvalM α} (h : Steady step) : Steady (EvalM.inFrame step) := by
  refine ⟨fun {ρ result ρ₁} hr => ?_, fun {ρ ρ' result ρ₁} hw hr hb => ?_⟩
  · rw [EvalM.inFrame_run] at hr
    obtain ⟨⟨_, ρ₂⟩, hs, he⟩ := Option.map_eq_some_iff.mp hr
    cases he
    rw [(h.grows hs).pop_eq]
    exact .refl ρ
  · rw [EvalM.inFrame_run] at hr ⊢
    obtain ⟨⟨_, ρ₂⟩, hs, he⟩ := Option.map_eq_some_iff.mp hr
    cases he
    obtain ⟨ρ₂', hs', -⟩ := h.again hw.push hs hb
    refine ⟨ρ', ?_, ?_⟩
    · rw [hs', Option.map_some, (h.grows hs').pop_eq]
    · rw [(h.grows hs).pop_eq]
      exact hw

end Steady

/-! ## Expressions -/

section Steps
variable {eval : Expr → EvalM Int64} (h : ∀ e, Steady (eval e))
include h

theorem mapM_steady (es : List Expr) : Steady (es.mapM eval) := by
  induction es with
  | nil => exact .pure []
  | cons e es ih =>
    rw [List.mapM_cons]
    exact (h e).bind fun v => ih.bind fun vs => .pure _

theorem evalSequence_steady (es : List Expr) : Steady (evalSequence eval es) := by
  rw [evalSequence_eq]
  exact (mapM_steady h es).bind fun vs => .pure _

theorem Call.evalArith_steady (op : ArithOp) (c : Call) : Steady (c.evalArith eval op) := by
  unfold Call.evalArith
  cases c.args with
  | nil => exact .fail _ _
  | cons e es =>
    refine (h e).bind fun v => (mapM_steady h es).bind fun vs => ?_
    split
    · exact .pure _
    · exact .fail _ _

theorem Call.evalCompare_steady (op : CompareOp) (c : Call) : Steady (c.evalCompare eval op) := by
  unfold Call.evalCompare
  split
  · exact (h _).bind fun a => (h _).bind fun b => .pure _
  · exact .fail _ _

/-- A body is run where parameters have been bound. -/
theorem body_steady (bindings : List (String × Int64)) (body : List Expr) : Steady (do
    bindings.forM fun (param, value) => EvalM.define param (.int value)
    evalSequence eval body) := by
  refine .bind ?_ fun _ => evalSequence_steady h body
  induction bindings with
  | nil => exact .pure ()
  | cons b bs ih =>
    exact (Steady.define b.1 (.int b.2)).bind fun _ => ih

theorem Call.evalUser_steady (c : Call) : Steady (c.evalUser eval) := by
  refine Steady.lookup (fun ρ ρ' hρ => by rw [hρ]) (fun ρ hρ => by rw [hρ]) fun ρ hρ => ?_
  split
  case h_1 hnone => exact absurd hnone hρ
  case h_2 => exact .fail _ _
  case h_3 d _ =>
    split
    · exact (mapM_steady h c.args).bind fun vs => .inFrame (body_steady h _ d.body)
    · exact .fail _ _

theorem Call.eval_steady (c : Call) : Steady (c.eval eval) := by
  unfold Call.eval
  split
  · exact c.evalArith_steady h _
  · exact (c.evalCompare_steady h _).bind fun b => .pure _
  · exact .fail _ _
  · exact c.evalUser_steady h

theorem Expr.evalStep_steady (e : Expr) : Steady (e.evalStep eval) := by
  cases e with
  | int v s => exact .pure v
  | name x s =>
    refine Steady.lookup (fun ρ ρ' hρ => by rw [hρ]) (fun ρ hρ => by rw [hρ]) fun ρ hρ => ?_
    split
    case h_1 => exact .pure _
    case h_2 => exact .fail _ _
    case h_3 hnone => exact absurd hnone hρ
  | ref e s => exact .fail _ _
  | call c s => exact c.eval_steady h
  | define d s =>
    refine (Steady.define _ _).bind fun _ => ?_
    split
    · exact evalSequence_steady h d.body
    · exact .pure 0
  | branch t y n s =>
    rw [evalStep_branch]
    split
    · refine (t.evalCompare_steady h _).bind fun b => ?_
      split
      · exact h y
      · cases n with
        | none => exact .pure 0
        | some e => exact h e
    · exact .fail _ _

end Steps

theorem Expr.eval_steady (n : Nat) (e : Expr) : Steady (e.eval n) := by
  induction n generalizing e with
  | zero => exact .diverge
  | succ n ih => exact e.evalStep_steady ih

/-! ## Programs in turn -/

def ProgramEnds (program : List Expr) (globals : Env) (result : Except EvalError Int64) (after : Env) : Prop :=
  ∃ depth, evalProgram depth program globals = some (result, after)

/-- Programs that are run in turn on one scope of globals, whatever each ends with; also a program that fails
leaves the globals it has defined. -/
inductive Session : List (List Expr) → List (Except EvalError Int64) → (globals : Env) → Prop
  | start : Session [] [] .empty
  | run {programs : List (List Expr)} {results : List (Except EvalError Int64)} {globals after : Env}
      {program : List Expr} {result : Except EvalError Int64} (h : Session programs results globals)
      (hp : ProgramEnds program globals result after) : Session (programs ++ [program]) (results ++ [result]) after

section Programs
variable {program : List Expr} {globals own after after' : Env} {result result' : Except EvalError Int64}

/-- A program ends in one way. -/
theorem ProgramEnds.unique (h : ProgramEnds program globals result after)
    (h' : ProgramEnds program globals result' after') : result' = result ∧ after' = after := by
  obtain ⟨n, hn⟩ := h
  obtain ⟨k, hk⟩ := h'
  have hmax := fun {i : Nat} (hi : i ≤ max n k) => evalSequence_below (Expr.eval_below hi) program globals
  have he := (hmax (Nat.le_max_right n k) _ hk).symm.trans (hmax (Nat.le_max_left n k) _ hn)
  cases he
  exact ⟨rfl, rfl⟩

/-- What a program does alone, it does on whatever globals. -/
theorem ProgramEnds.on (h : ProgramEnds program .empty result own) (hbound : ¬ Unbound result) (globals : Env) :
    ∃ after, ProgramEnds program globals result after ∧ own.Within after := by
  obtain ⟨n, hn⟩ := h
  obtain ⟨after, hafter, hw⟩ :=
    (evalSequence_steady (Expr.eval_steady n) program).again (Scope.empty_within globals) hn hbound
  exact ⟨after, ⟨n, hafter⟩, hw⟩

/-- A program that ends alone, other than at an unbound name, ends in a session in that one way, and every
global it leaves alone is bound to the same thing after it. -/
theorem Session.run_of_alone {programs : List (List Expr)} {results : List (Except EvalError Int64)}
    (h : Session programs results globals) (halone : ProgramEnds program .empty result own)
    (hbound : ¬ Unbound result) : ∃ after, Session (programs ++ [program]) (results ++ [result]) after ∧
      (∀ r a, ProgramEnds program globals r a ↔ r = result ∧ a = after) ∧
      ∀ x b, own.lookup? x = some b → after.lookup? x = some b := by
  obtain ⟨after, hafter, hw⟩ := halone.on hbound globals
  refine ⟨after, h.run hafter, fun r a => ⟨fun hr => hafter.unique hr, ?_⟩, hw⟩
  rintro ⟨rfl, rfl⟩
  exact hafter

end Programs

/-- The program `(def f () 1)`, and then `(def f (n) (+ n 1)) (f 2)`, which takes another parameter for `f`. -/
def redefiningSession : List Expr × List Expr :=
  ([.define ⟨"f", [], [.int 1 default], default⟩ default],
    [.define ⟨"f", ["n"], [.call ⟨"+", [.name "n" default, .int 1 default], default⟩ default], default⟩ default,
      .call ⟨"f", [.int 2 default], default⟩ default])

/-- The function that was left behind is not the one that is called. -/
theorem session_redefines : ∃ globals own after, Session [redefiningSession.1] [.ok 0] globals ∧
    globals.lookup? "f" ≠ none ∧ ProgramEnds redefiningSession.2 .empty (.ok 3) own ∧
    Session [redefiningSession.1, redefiningSession.2] [.ok 0, .ok 3] after ∧
    own.lookup? "f" ≠ none ∧ after.lookup? "f" = own.lookup? "f" := by
  have hfirst : Session [redefiningSession.1] [.ok 0] _ := .run .start ⟨1, rfl⟩
  have hsecond : ProgramEnds redefiningSession.2 .empty (.ok 3) _ := ⟨3, rfl⟩
  have hbound : ¬ Unbound (.ok 3 : Except EvalError Int64) := nofun
  obtain ⟨after, hafter, -, hglobals⟩ := hfirst.run_of_alone hsecond hbound
  exact ⟨_, _, after, hfirst, nofun, hsecond, hafter, nofun, hglobals "f" _ rfl⟩

end SmallLisp
