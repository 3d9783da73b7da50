import SmallLisp.Proofs.Environment
import SmallLisp.Proofs.Outcomes

/-! # The interpreter computes the meaning

Where the interpreter has a value for an expression of a compiled program, the value is what the
expression means, and where it stops at a zero divisor, so does the meaning. The environment agrees with
the scope of the compiler all along. By induction on the depth of the interpreter this holds of calls.
-/
namespace SmallLisp
open EvalM

section Evaluation
variable {program : List Expr} {visible : List String} {vars : String → Option Int64}
  {known : String → Nat → Prop} {meaning : Expr → Run Int64} {eval : Expr → EvalM Int64}

variable (program visible vars) in
/-- A step that agrees with what it should compute, from one scope to another. -/
def Evaluates {α : Type} (step : EvalM α) (run : Run α) (σ σ' : Scope Storage) : Prop :=
  ∀ ρ, Agrees program visible vars σ ρ → Outcomes step ρ
    (fun v ρ' => run = pure v ∧ Agrees program visible vars σ' ρ' ∧ ρ.Extends ρ')
    (run = throw .zeroDivisor)

variable (program visible vars meaning eval) in
def EvaluatesEach (es : List Expr) (σ σ' : Scope Storage) : Prop :=
  ∀ ρ, Agrees program visible vars σ ρ → Outcomes (es.mapM eval) ρ
    (fun vs ρ' => es.map meaning = vs.map pure ∧ Agrees program visible vars σ' ρ' ∧ ρ.Extends ρ')
    (Run.Stops (es.map meaning))

section Combinators
variable {α β : Type} {σ σ₁ σ₂ σ' : Scope Storage} {e : Expr} {es : List Expr}

theorem Evaluates.pure {step : EvalM α} {run : Run α} {v : α} (hs : step = pure v) (hr : run = pure v) :
    Evaluates program visible vars step run σ σ := by
  subst hs hr
  exact fun ρ hρ => .pure ⟨rfl, hρ, .refl ρ⟩

theorem Evaluates.bind {x : EvalM α} {rx : Run α} {f : α → EvalM β} {rf : α → Run β}
    (hx : Evaluates program visible vars x rx σ σ₁)
    (hf : ∀ v, Evaluates program visible vars (f v) (rf v) σ₁ σ₂) :
    Evaluates program visible vars (x >>= f) (rx >>= rf) σ σ₂ := by
  intro ρ hρ
  refine (hx ρ hρ).bind (fun h => by rw [h, Run.throw_bind]) ?_
  rintro v ρ₁ ⟨rfl, hρ₁, ho₁⟩
  rw [pure_bind]
  intro result ρ₂ h
  have hv := hf v ρ₁ hρ₁ result ρ₂ h
  cases result with
  | ok w => exact ⟨hv.1, hv.2.1, ho₁.trans hv.2.2⟩
  | error e => exact hv

/-- A step on the values of expressions. -/
theorem EvaluatesEach.bind {f : List Int64 → EvalM α} {run : Run α}
    (h : EvaluatesEach program visible vars meaning eval es σ σ')
    (hstops : Run.Stops (es.map meaning) → run = throw .zeroDivisor)
    (hf : ∀ vs, es.map meaning = vs.map Pure.pure → (∃ v, f vs = Pure.pure v ∧ run = Pure.pure v) ∨
      ∃ fault span, f vs = EvalM.fail fault span ∧ (fault = .divisionByZero → run = throw .zeroDivisor)) :
    Evaluates program visible vars (es.mapM eval >>= f) run σ σ' := by
  intro ρ hρ
  refine (h ρ hρ).bind hstops ?_
  rintro vs ρ' ⟨hvs, hρ', ho⟩
  rcases hf vs hvs with ⟨v, hf, hr⟩ | ⟨fault, span, hf, hr⟩
  · rw [hf]
    exact .pure ⟨hr, hρ', ho⟩
  · rw [hf]
    exact .fail hr span

theorem EvaluatesEach.nil : EvaluatesEach program visible vars meaning eval [] σ σ :=
  fun ρ hρ => .pure ⟨rfl, hρ, .refl ρ⟩

theorem EvaluatesEach.cons (h : Evaluates program visible vars (eval e) (meaning e) σ σ₁)
    (hes : EvaluatesEach program visible vars meaning eval es σ₁ σ₂) :
    EvaluatesEach program visible vars meaning eval (e :: es) σ σ₂ := by
  intro ρ hρ
  rw [List.mapM_cons]
  refine (h ρ hρ).bind (fun h => ⟨[], es.map meaning, by rw [List.map_cons, h]; rfl⟩) ?_
  rintro v ρ₁ ⟨hv, hρ₁, ho₁⟩
  refine (hes ρ₁ hρ₁).bind ?_ ?_
  · rintro ⟨vs, rest, h⟩
    exact ⟨v :: vs, rest, by rw [List.map_cons, hv, h]; rfl⟩
  · rintro vs ρ₂ ⟨hvs, hρ₂, ho₂⟩
    exact .pure ⟨by rw [List.map_cons, hv, hvs]; rfl, hρ₂, ho₁.trans ho₂⟩

/-- Both branches of a conditional are resolved, and one is evaluated. -/
theorem Evaluates.ite {step step' : EvalM α} {run run' : Run α} {b : Bool}
    (h : Evaluates program visible vars step run σ₁ σ₂)
    (hσ₂ : Resolved known (Placed program visible) true σ₂ es σ')
    (hσ₁ : Resolved known (Placed program visible) true σ₁ [e] σ₂)
    (h' : Evaluates program visible vars step' run' σ₂ σ') :
    Evaluates program visible vars (if b then step else step') (if b then run else run') σ₁ σ' := by
  intro ρ hρ
  cases b with
  | true =>
    intro result ρ' hr
    have hstep := h ρ hρ result ρ' hr
    cases result with
    | ok v => exact ⟨hstep.1, hstep.2.1.skip hσ₂, hstep.2.2⟩
    | error err => exact hstep
  | false => exact h' ρ (hρ.skip hσ₁)

end Combinators

/-! ## Constructs -/

section Calls
variable {σ σ' : Scope Storage} {c : Call} {answers : Nat → Int64} {call : String → List Int64 → Run Int64}

theorem evalSequence_evaluates {es : List Expr} (hne : es ≠ [])
    (h : EvaluatesEach program visible vars meaning eval es σ σ') :
    Evaluates program visible vars (evalSequence eval es) (Run.last (es.map meaning)) σ σ' := by
  rw [evalSequence_eq]
  have hmap : es.map meaning ≠ [] := by simpa using hne
  refine h.bind (fun hs => ?_) fun vs hvs => .inl ⟨vs.getLastD 0, rfl, ?_⟩
  · rw [Run.last_eq hmap, Run.inOrder_stops hs]
    rfl
  · rw [Run.last_eq hmap, hvs, Run.inOrder_pure, pure_bind]

theorem EvaluatesEach.head {e : Expr} (h : EvaluatesEach program visible vars meaning eval [e] σ σ') :
    Evaluates program visible vars (eval e) (meaning e) σ σ' := by
  have hseq := evalSequence_evaluates (List.cons_ne_nil e []) h
  rwa [evalSequence_singleton] at hseq

theorem evalArith_evaluates (op : ArithOp) (hargs : c.args ≠ [])
    (h : EvaluatesEach program visible vars meaning eval c.args σ σ') :
    Evaluates program visible vars (c.evalArith eval op) (Run.arithmetic op (c.args.map meaning)) σ σ' := by
  rw [evalArith_eq op hargs]
  refine h.bind (Run.arithmetic_stops op) fun vs hvs => ?_
  rw [hvs]
  cases vs with
  | nil =>
    rw [List.map_nil, List.map_eq_nil_iff] at hvs
    exact absurd hvs hargs
  | cons v vs =>
    rw [Run.arithmetic_pure]
    cases hv : op.fold v vs with
    | ok w => exact .inl ⟨w, by simp only [hv], rfl⟩
    | error i =>
      exact .inr ⟨.divisionByZero, (c.args.tail[i]?.map Expr.span).getD c.span, by simp only [hv], fun _ => rfl⟩

theorem evalCompare_evaluates (op : CompareOp) {x y : Expr} (hargs : c.args = [x, y])
    (h : EvaluatesEach program visible vars meaning eval [x, y] σ σ') :
    Evaluates program visible vars (c.evalCompare eval op) (Run.compare op (c.args.map meaning)) σ σ' := by
  rw [evalCompare_eq op hargs, hargs]
  change Evaluates program visible vars _ (Run.compare op [meaning x, meaning y]) σ σ'
  rw [Run.compare_eq]
  refine h.bind (fun hs => ?_) fun vs hvs => ?_
  · have hthrow : Run.inOrder [meaning x, meaning y] = throw .zeroDivisor := Run.inOrder_stops hs
    rw [hthrow]
    rfl
  · have hlen := congrArg List.length hvs
    rw [List.length_map, List.length_map] at hlen
    obtain ⟨a, b, rfl⟩ := List.length_eq_two.mp hlen.symm
    have hpure : Run.inOrder [meaning x, meaning y] = pure [a, b] := by
      change Run.inOrder ([x, y].map meaning) = _
      rw [hvs, Run.inOrder_pure]
    exact .inl ⟨op.holds a b, rfl, by rw [hpure, pure_bind]⟩

/-- A definition that is not at the top is only bound. -/
theorem define_evaluates {b : Bool} {d : Definition} (hd : Placed program visible b d) (span : Span)
    (hmain : "main" ∈ (topDefinitions program).map (·.name)) :
    Evaluates program visible vars ((Expr.define d span).evalStep eval) (pure 0) σ (σ.define d.name .function) := by
  intro ρ hρ result ρ' hr
  rw [Expr.evalStep, hd.isMain_eq_false hmain] at hr
  cases hr
  exact ⟨rfl, hρ.define hd, .define ρ _ _⟩

theorem name_evaluates {x : String} {r : IR.Reg} (hx : σ.lookup? x = some (.slot r)) (span : Span) :
    Evaluates program visible vars ((Expr.name x span).evalStep eval)
      ((Expr.name x span).meaning answers call vars) σ σ := by
  intro ρ hρ
  obtain ⟨v, hv, hvars⟩ := hρ.slots x r hx
  refine .get ?_
  rw [hv, Expr.meaning, hvars]
  exact .pure ⟨rfl, hρ, .refl ρ⟩

/-- Parameters are bound in turn. -/
theorem Outcomes.define_bind {α : Type} {ρ : Env} {bindings : List (String × Int64)} {step : EvalM α}
    {value : α → Env → Prop} {bad : Prop} (h : Outcomes step (ρ.bind bindings) value bad) :
    Outcomes (bindings.forM (fun (x, v) => EvalM.define x (.int v)) >>= fun _ => step) ρ value bad := by
  induction bindings generalizing ρ with
  | nil => exact h
  | cons b bs ih => exact ih h

theorem evalUser_evaluates {abi : IR.Abi} {m : IR.Module} (hm : CompiledProgram abi program m)
    (hparams : ∀ d ∈ definitions program, d.params.Nodup) {depth : Nat} (hop : Builtin.ofHead? c.head = none)
    (h : EvaluatesEach program visible vars (Expr.meaning answers (callMeaning program answers (depth + 1)) vars)
      eval c.args σ σ')
    (hbody : ∀ {visible vars σ σ' es}, Resolved (Defines program) (Placed program visible) false σ es σ' →
      EvaluatesEach program visible vars (Expr.meaning answers (callMeaning program answers depth) vars)
        eval es σ σ') :
    Evaluates program visible vars (c.evalUser eval)
      (c.meaning answers (callMeaning program answers (depth + 1)) vars) σ σ' := by
  intro ρ hρ
  refine .get ?_
  match hl : ρ.lookup? c.head with
  | none | some (.int _) => exact .fail nofun _
  | some (.function d) =>
    by_cases harity : d.arity = c.args.length
    case neg =>
      simp only [if_neg harity]
      exact .fail nofun _
    simp only [if_pos harity]
    rw [Call.meaning_user hop]
    refine (h ρ hρ).bind (fun hs => by rw [Run.inOrder_stops hs, Run.throw_bind]) ?_
    rintro vs ρ₁ ⟨hvs, hρ₁, hext₁⟩
    rw [hvs, Run.inOrder_pure, pure_bind]
    have hlen : vs.length = d.arity := by
      have hlen := congrArg List.length hvs
      rw [List.length_map, List.length_map] at hlen
      rw [harity, hlen]
    have hbound := hext₁.exists_frame (Scope.exists_of_lookup? hl)
    obtain ⟨hd, hname⟩ := hρ₁.definition hm hbound
    obtain ⟨hne, visible', σ₁, σ₂, hres, hagrees⟩ := hρ₁.call hm hparams hbound hlen
    rw [← hname, callMeaning_succ (find?_of_nodup hm.distinct hd)]
    refine .inFrame (.define_bind ?_)
    intro result ρ₂ hr
    have hseq := evalSequence_evaluates hne (hbody hres) _ hagrees result ρ₂ hr
    cases result with
    | ok v =>
      obtain ⟨hv, -, hext₂⟩ := hseq
      have hpop : ρ₂.pop = ρ₁ := ((Scope.extends_bind ρ₁.push _).trans hext₂).pop_eq
      exact ⟨hv, hpop.symm ▸ hρ₁, hpop.symm ▸ hext₁⟩
    | error e => exact hseq

/-- A conditional on a comparison. -/
theorem branch_evaluates {test : Call} {x y yes : Expr} {no : Option Expr} {op : CompareOp}
    {σ₁ σ₂ : Scope Storage} (hop : Builtin.ofHead? test.head = some (.compare op)) (hargs : test.args = [x, y])
    (span : Span) (h₂ : Resolved known (Placed program visible) true σ₁ [yes] σ₂)
    (h₃ : Resolved known (Placed program visible) true σ₂ no.toList σ')
    (hxy : EvaluatesEach program visible vars (Expr.meaning answers call vars) eval [x, y] σ σ₁)
    (hyes : Evaluates program visible vars (eval yes) (yes.meaning answers call vars) σ₁ σ₂)
    (hno : ∀ e, no = some e → Evaluates program visible vars (eval e) (e.meaning answers call vars) σ₂ σ') :
    Evaluates program visible vars ((Expr.branch test yes no span).evalStep eval)
      ((Expr.branch test yes no span).meaning answers call vars) σ σ' := by
  rw [Expr.meaning_branch, Run.conditional, evalStep_branch, hop]
  refine (evalCompare_evaluates op hargs hxy).bind fun b => ?_
  refine hyes.ite h₃ h₂ ?_
  cases no with
  | none =>
    cases h₃
    exact .pure rfl rfl
  | some e => exact hno e rfl

theorem call_evaluates {s : Span} {step : EvalM Int64} {run : Run Int64} (hs : c.eval eval = step)
    (hr : c.meaning answers call vars = run) (h : Evaluates program visible vars step run σ σ') :
    EvaluatesEach program visible vars (Expr.meaning answers call vars)
      (Expr.evalStep eval) [.call c s] σ σ' := by
  subst hs hr
  exact .cons h .nil

end Calls

/-! ## The interpreter -/

section Interpreter
variable {abi : IR.Abi} {m : IR.Module} {answers : Nat → Int64}

/-- Whatever the interpreter computes is what the program means, where calls may nest deep enough. -/
theorem eval_evaluates (hm : CompiledProgram abi program m) (hparams : ∀ d ∈ definitions program, d.params.Nodup)
    (hmain : "main" ∈ (topDefinitions program).map (·.name)) (n : Nat) {visible : List String}
    {vars : String → Option Int64} {b : Bool} {σ σ' : Scope Storage} {es : List Expr}
    (h : Resolved (Defines program) (Placed program visible) b σ es σ') {depth : Nat} (hdepth : n ≤ depth) :
    EvaluatesEach program visible vars (Expr.meaning answers (callMeaning program answers depth) vars)
      (Expr.eval n) es σ σ' := by
  induction n generalizing visible vars b σ es σ' depth with
  | zero =>
    induction h with
    | nil => exact .nil
    | cons _ _ ih₁ ih₂ => exact .cons ih₁.head ih₂
    | _ => exact .cons (fun _ _ => .diverge) .nil
  | succ n ih =>
    change EvaluatesEach program visible vars _ (Expr.evalStep (Expr.eval n)) es σ σ'
    obtain ⟨depth, rfl⟩ : ∃ k, depth = k + 1 := ⟨depth - 1, by omega⟩
    induction h with
    | nil => exact .nil
    | cons _ _ ih₁ ih₂ => exact .cons ih₁.head ih₂
    | int b σ v s => exact .cons (.pure rfl rfl) .nil
    | name b hx s => exact .cons (name_evaluates hx s) .nil
    | define σ hd s => exact .cons (define_evaluates hd s hmain) .nil
    | @arith b σ σ' c op hop hargs s h =>
      refine call_evaluates (by rw [Call.eval, hop]) (Call.meaning_arith hop) ?_
      exact evalArith_evaluates op hargs (ih h (by omega))
    | @compare b σ σ' c op x y hop hargs s h =>
      refine call_evaluates (by rw [Call.eval, hop]) (Call.meaning_compare hop) ?_
      refine (evalCompare_evaluates op hargs (ih h (by omega))).bind fun b => ?_
      cases b <;> exact .pure rfl rfl
    | write hop hargs s h =>
      refine call_evaluates (by rw [Call.eval, hop]) rfl ?_
      exact fun _ _ => .fail nofun _
    | user hop hσ hknown s h =>
      refine call_evaluates (by rw [Call.eval, hop]) rfl ?_
      exact evalUser_evaluates hm hparams hop (ih h (by omega)) fun hb => ih hb (by omega)
    | branch hop hargs s h₁ h₂ h₃ =>
      refine .cons (branch_evaluates hop hargs s h₂ h₃ (ih h₁ (by omega)) (ih h₂ (by omega)).head ?_) .nil
      intro e he
      subst he
      exact (ih h₃ (by omega)).head

end Interpreter
end Evaluation
end SmallLisp
