import SmallLisp.Proofs.OperandOrder
import SmallLisp.Proofs.Sessions
import SmallLisp.Proofs.SpanFidelity

/-! # What evaluation does to the frames

Evaluation changes the innermost frame alone, and there it binds functions that are defined in the expression itself.
A body that is run by a call has a frame of its own, so what it binds is gone when the call ends, with a value or not:
a caller finds the environment that evaluating the operands has left.
-/
namespace SmallLisp
open EvalM

/-- A definition stands in an expression, and in no body but that of a `main`. -/
inductive Expr.Binds (d : Definition) : Expr → Prop
  | here (s : Span) : Binds d (.define d s)
  | child {e c : Expr} (hc : c ∈ e.children) (hbody : ∀ f s, e = .define f s → f.isMain)
      (h : Binds d c) : Binds d e

structure Scope.Gains (functions : Definition → Prop) (ρ ρ' : Env) : Prop where
  outer : ρ'.outer = ρ.outer
  inner : ∀ x, ρ'.inner.lookup x = ρ.inner.lookup x ∨
    ∃ d, functions d ∧ d.name = x ∧ ρ'.inner.lookup x = some (.function d)

namespace Scope.Gains
variable {functions more : Definition → Prop} {ρ ρ₁ ρ₂ : Env}

theorem refl (ρ : Env) : Gains functions ρ ρ := ⟨rfl, fun _ => .inl rfl⟩

theorem trans (h₁ : Gains functions ρ ρ₁) (h₂ : Gains functions ρ₁ ρ₂) : Gains functions ρ ρ₂ := by
  refine ⟨h₂.outer.trans h₁.outer, fun x => ?_⟩
  rcases h₂.inner x with h | h
  · rw [h]
    exact h₁.inner x
  · exact .inr h

theorem mono (hmore : ∀ d, functions d → more d) (h : Gains functions ρ ρ₁) : Gains more ρ ρ₁ := by
  refine ⟨h.outer, fun x => (h.inner x).imp_right ?_⟩
  rintro ⟨d, hd, hx⟩
  exact ⟨d, hmore d hd, hx⟩

theorem define {d : Definition} (hd : functions d) (ρ : Env) :
    Gains functions ρ (ρ.define d.name (.function d)) := by
  refine ⟨rfl, fun x => ?_⟩
  rw [Scope.define, lookup_cons_eq_ite]
  by_cases hx : d.name = x
  · exact .inr ⟨d, hd, hx, if_pos hx⟩
  · exact .inl (if_neg hx)

end Scope.Gains

/-! ## Steps -/

def Confined {α : Type} (functions : Definition → Prop) (step : EvalM α) : Prop :=
  ∀ ρ result ρ', step ρ = some (result, ρ') → Scope.Gains functions ρ ρ'

namespace Confined
variable {α β : Type} {functions more : Definition → Prop} {step : EvalM α}

theorem pure (v : α) : Confined functions (Pure.pure v : EvalM α) := by
  rintro ρ _ _ ⟨⟩
  exact .refl ρ

theorem fail (fault : EvalFault) (span : Span) : Confined functions (EvalM.fail fault span : EvalM α) := by
  rintro ρ _ _ ⟨⟩
  exact .refl ρ

theorem define {d : Definition} (hd : functions d) : Confined functions (EvalM.define d.name (.function d)) := by
  rintro ρ _ _ ⟨⟩
  exact .define hd ρ

theorem bind {f : α → EvalM β} (h : Confined functions step) (hf : ∀ v, Confined functions (f v)) :
    Confined functions (step >>= f) := by
  intro ρ result ρ' hr
  rcases bind_cases hr with ⟨v, ρ₁, hstep, hr⟩ | ⟨e, hstep, -⟩
  · exact (h _ _ _ hstep).trans (hf v _ _ _ hr)
  · exact h _ _ _ hstep

theorem get_bind {f : Env → EvalM α} (h : ∀ ρ, Confined functions (f ρ)) :
    Confined functions ((MonadState.get : EvalM Env) >>= f) :=
  fun ρ result ρ' hr => h ρ ρ result ρ' hr

theorem mono (hmore : ∀ d, functions d → more d) (h : Confined functions step) : Confined more step :=
  fun ρ result ρ' hr => (h ρ result ρ' hr).mono hmore

end Confined

/-- A step in a frame of its own leaves nothing behind, whatever it ends with. -/
theorem Steady.inFrame_eq {α : Type} {step : EvalM α} (h : Steady step) {ρ ρ' : Env} {result : Except EvalError α}
    (hr : EvalM.inFrame step ρ = some (result, ρ')) : ρ' = ρ := by
  rw [EvalM.inFrame_run] at hr
  obtain ⟨⟨_, ρ₁⟩, hs, he⟩ := Option.map_eq_some_iff.mp hr
  cases he
  exact (h.grows hs).pop_eq

/-! ## Expressions -/

section Steps
variable {eval : Expr → EvalM Int64}

def BindsEach (es : List Expr) (d : Definition) : Prop := ∃ e ∈ es, e.Binds d

/-- A call of a function leaves what evaluating its operands leaves, or nothing where it is not made. -/
theorem Call.evalUser_leaves (hs : ∀ e, Steady (eval e)) {c : Call} {ρ ρ' : Env} {result : Except EvalError Int64}
    (h : c.evalUser eval ρ = some (result, ρ')) :
    (∃ d operands, ρ.lookup? c.head = some (.function d) ∧ d.arity = c.args.length ∧
      c.args.mapM eval ρ = some (operands, ρ') ∧ ∀ e, operands = .error e → result = .error e) ∨
    (∀ d, ρ.lookup? c.head = some (.function d) → d.arity ≠ c.args.length) ∧ ρ' = ρ := by
  unfold Call.evalUser at h
  rcases bind_cases h with ⟨_, _, hget, h⟩ | ⟨_, hget, -⟩
  case inr => cases hget
  cases hget
  generalize hfound : ρ.lookup? c.head = found at h
  rcases found with _ | _ | d
  · cases h
    exact .inr ⟨nofun, rfl⟩
  · cases h
    exact .inr ⟨nofun, rfl⟩
  · by_cases harity : d.arity = c.args.length
    · simp only [harity, if_true] at h
      rcases bind_cases h with ⟨vs, ρ₁, hargs, hbody⟩ | ⟨e, hargs, rfl⟩
      · rw [(body_steady hs _ d.body).inFrame_eq hbody]
        exact .inl ⟨d, .ok vs, rfl, harity, hargs, nofun⟩
      · exact .inl ⟨d, .error e, rfl, harity, hargs, fun _ he => by cases he; rfl⟩
    · simp only [harity, if_false] at h
      cases h
      refine .inr ⟨fun d' hd' => ?_, rfl⟩
      cases hd'
      exact harity

variable (h : ∀ e, Confined (fun d => e.Binds d) (eval e))
include h

theorem mapM_confined (es : List Expr) : Confined (BindsEach es) (es.mapM eval) := by
  induction es with
  | nil => exact .pure []
  | cons e es ih =>
    rw [List.mapM_cons]
    have hhead : Confined (BindsEach (e :: es)) (eval e) := (h e).mono fun d hd => ⟨e, List.mem_cons_self, hd⟩
    refine hhead.bind fun v => .bind (ih.mono ?_) fun vs => .pure _
    rintro d ⟨f, hf, hd⟩
    exact ⟨f, List.mem_cons_of_mem e hf, hd⟩

theorem evalSequence_confined (es : List Expr) : Confined (BindsEach es) (evalSequence eval es) := by
  rw [evalSequence_eq]
  exact (mapM_confined h es).bind fun vs => .pure _

theorem Call.evalArith_confined (op : ArithOp) (c : Call) : Confined (BindsEach c.args) (c.evalArith eval op) := by
  by_cases hne : c.args = []
  · unfold Call.evalArith
    rw [hne]
    exact .fail _ _
  · rw [evalArith_eq op hne]
    refine (mapM_confined h c.args).bind fun vs => ?_
    split
    · exact .fail _ _
    · split
      · exact .pure _
      · exact .fail _ _

theorem Call.evalCompare_confined (op : CompareOp) (c : Call) :
    Confined (BindsEach c.args) (c.evalCompare eval op) := by
  unfold Call.evalCompare
  split
  case h_1 left right hargs =>
    have hpart {e : Expr} (he : e ∈ c.args) : Confined (BindsEach c.args) (eval e) :=
      (h e).mono fun d hd => ⟨e, he, hd⟩
    exact (hpart (by simp [hargs])).bind fun a => (hpart (by simp [hargs])).bind fun b => .pure _
  case h_2 => exact .fail _ _

theorem Call.evalUser_confined (hs : ∀ e, Steady (eval e)) (c : Call) :
    Confined (BindsEach c.args) (c.evalUser eval) := by
  intro ρ result ρ' hr
  rcases Call.evalUser_leaves hs hr with ⟨d, operands, -, -, hargs, -⟩ | ⟨-, rfl⟩
  · exact mapM_confined h c.args _ _ _ hargs
  · exact .refl ρ'

theorem Call.eval_confined (hs : ∀ e, Steady (eval e)) (c : Call) : Confined (BindsEach c.args) (c.eval eval) := by
  unfold Call.eval
  split
  · exact c.evalArith_confined h _
  · exact (c.evalCompare_confined h _).bind fun b => .pure _
  · exact .fail _ _
  · exact c.evalUser_confined h hs

theorem Expr.evalStep_confined (hs : ∀ e, Steady (eval e)) (e : Expr) :
    Confined (fun d => e.Binds d) (e.evalStep eval) := by
  cases e with
  | int v s => exact .pure v
  | name x s =>
    refine .get_bind fun ρ => ?_
    split
    · exact .pure _
    · exact .fail _ _
    · exact .fail _ _
  | ref e s => exact .fail _ _
  | call c s =>
    refine (c.eval_confined h hs).mono ?_
    rintro d ⟨a, ha, hd⟩
    exact .child (e := .call c s) ha nofun hd
  | define d s =>
    refine (Confined.define (.here s)).bind fun _ => ?_
    split
    case isTrue hmain =>
      refine (evalSequence_confined h d.body).mono ?_
      rintro f ⟨e, he, hf⟩
      refine .child (e := .define d s) he (fun g t heq => ?_) hf
      cases heq
      exact hmain
    case isFalse => exact .pure 0
  | branch t y n s =>
    have hpart {e : Expr} (he : e ∈ (Expr.branch t y n s).children) :
        Confined (fun d => (Expr.branch t y n s).Binds d) (eval e) := (h e).mono fun d hd => .child he nofun hd
    rw [evalStep_branch]
    split
    · refine .bind ((t.evalCompare_confined h _).mono ?_) fun b => ?_
      · rintro d ⟨a, ha, hd⟩
        exact .child (c := .call t t.span) List.mem_cons_self nofun (.child (e := .call t t.span) ha nofun hd)
      · split
        · exact hpart (by simp [Expr.children])
        · cases n with
          | none => exact .pure 0
          | some e => exact hpart (by simp [Expr.children])
    · exact .fail _ _

end Steps

theorem Expr.eval_confined (n : Nat) (e : Expr) : Confined (fun d => e.Binds d) (e.eval n) := by
  induction n generalizing e with
  | zero => exact nofun
  | succ n ih => exact e.evalStep_confined ih (Expr.eval_steady n)

/-- However an expression ends, all frames but the innermost are as before, and what a name is bound to there has
changed only to a function that the expression defines. A call of a function leaves the environment that evaluating
its operands leaves, whatever its body does, and the one before where it has no function to call. -/
theorem Expr.frames_of_ends {e : Expr} {ρ ρ' : Env} {result : Except EvalError Int64} (h : e.Ends ρ result ρ') :
    ρ'.outer = ρ.outer ∧
    (∀ x, ρ'.inner.lookup x ≠ ρ.inner.lookup x →
      ∃ d, e.Binds d ∧ d.name = x ∧ ρ'.inner.lookup x = some (.function d)) ∧
    ∀ c s, e = .call c s → Builtin.ofHead? c.head = none →
      (∃ d, ρ.lookup? c.head = some (.function d) ∧ d.arity = c.args.length ∧
        ((∃ vs, ValuesInTurn c.args ρ vs ρ') ∨
          ∃ error, FailsInTurn c.args ρ error ρ' ∧ result = .error error)) ∨
      (∀ d, ρ.lookup? c.head = some (.function d) → d.arity ≠ c.args.length) ∧ ρ' = ρ := by
  obtain ⟨n, hn⟩ := h
  have hgains := e.eval_confined n _ _ _ hn
  refine ⟨hgains.outer, fun x hx => (hgains.inner x).resolve_left hx, ?_⟩
  rintro c s rfl hhead
  cases n with
  | zero => cases hn
  | succ n =>
    have huser : c.evalUser (Expr.eval n) ρ = some (result, ρ') := by
      simpa only [Expr.eval, Expr.evalStep, Call.eval, hhead] using hn
    rcases Call.evalUser_leaves (Expr.eval_steady n) huser with ⟨d, operands, hd, harity, hargs, hfail⟩ | hnone
    · refine .inl ⟨d, hd, harity, ?_⟩
      rcases turns_of_mapM hargs with ⟨vs, -, hvalues⟩ | ⟨error, hoperands, hfails⟩
      · exact .inl ⟨vs, hvalues⟩
      · exact .inr ⟨error, hfails, hfail error hoperands⟩
    · exact .inr hnone

/-- A scope in which the function `f` defines `g` and then divides its argument by zero. -/
def failingEnv : Env :=
  ⟨[("f", .function ⟨"f", ["x"], [.define ⟨"g", [], [.name "x" default], default⟩ default,
    .call ⟨"/", [.name "x" default, .int 0 ⟨7, 8⟩], default⟩ default], default⟩)], [[("y", .int 1)]]⟩

/-- The call `(f (def h () 1))`. -/
def definingCall : Call := ⟨"f", [.define ⟨"h", [], [.int 1 default], default⟩ default], default⟩

/-- What the operand defines is bound after the call has failed, and what the body defines is not. -/
theorem Expr.frames_of_ends_definingCall :
    ∃ ρ', (Expr.call definingCall default).Ends failingEnv (.error ⟨.divisionByZero, ⟨7, 8⟩⟩) ρ' ∧
      ρ'.outer = failingEnv.outer ∧ ρ'.inner.map (·.1) = ["h", "f"] ∧
      ∃ d, (Expr.call definingCall default).Binds d ∧ d.name = "h" ∧
        ρ'.inner.lookup "h" = some (.function d) := by
  have hends : (Expr.call definingCall default).Ends failingEnv (.error ⟨.divisionByZero, ⟨7, 8⟩⟩)
    (failingEnv.define "h" (.function ⟨"h", [], [.int 1 default], default⟩)) := ⟨3, rfl⟩
  obtain ⟨houter, hinner, -⟩ := Expr.frames_of_ends hends
  exact ⟨_, hends, houter, rfl, hinner "h" nofun⟩

end SmallLisp
