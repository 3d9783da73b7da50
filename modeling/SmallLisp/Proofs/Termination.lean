import SmallLisp.Proofs.Interpretation
import SmallLisp.Proofs.SilentRuns

/-! # Where the meaning has a value, the interpreter ends

If a computation that does not write has a value then the interpreter has an outcome at every depth that
is great enough: that value, or a fault at a call of a function that the compiler finds and the
interpreter does not. There are two such faults. The proof is by induction on the depth of calls and on
the expressions.
-/
namespace SmallLisp
open EvalM

/-- The faults at a call by which the interpreter misses a function of the program: a parameter of a
caller has its name, or its definition is in a branch. -/
inductive Missed (program : List Expr) : EvalFault → Prop
  | hidden {x : String} (hfunction : x ∈ (definitions program).map (·.name))
      (hparam : ∃ f ∈ definitions program, x ∈ f.params) : Missed program (.typeMismatch .function .integer)
  | absent {x : String} (h : DefinedInBranch program x) : Missed program (.unboundName x)

/-- At every depth that is great enough a step has one and the same outcome: a value as described, or a
fault at a call. -/
def Reaches {α : Type} (program : List Expr) (step : Nat → EvalM α) (ρ : Env)
    (value : α → Env → Prop) : Prop :=
  ∃ bound result ρ', (∀ n, bound ≤ n → step n ρ = some (result, ρ')) ∧ match result with
    | .ok v => value v ρ'
    | .error e => Missed program e.fault

namespace Reaches
variable {α β : Type} {program : List Expr} {ρ : Env} {value : α → Env → Prop}

theorem pure {v : α} (h : value v ρ) : Reaches program (fun _ => pure v) ρ value :=
  ⟨0, .ok v, ρ, fun _ _ => rfl, h⟩

theorem fail {fault : EvalFault} (h : Missed program fault) (span : Span) :
    Reaches program (fun _ => EvalM.fail fault span) ρ value :=
  ⟨0, .error ⟨fault, span⟩, ρ, fun _ _ => rfl, h⟩

theorem bind {x : Nat → EvalM β} {f : β → Nat → EvalM α} {mid : β → Env → Prop}
    (hx : Reaches program x ρ mid) (hf : ∀ v ρ', mid v ρ' → Reaches program (f v) ρ' value) :
    Reaches program (fun n => x n >>= fun v => f v n) ρ value := by
  obtain ⟨n₁, result, ρ₁, hrun, hres⟩ := hx
  cases result with
  | ok v =>
    obtain ⟨n₂, result, ρ₂, hrun₂, hres₂⟩ := hf v ρ₁ hres
    refine ⟨max n₁ n₂, result, ρ₂, fun n hn => ?_, hres₂⟩
    refine (bind_run _ _ _).trans ?_
    rw [hrun n (by omega)]
    exact hrun₂ n (by omega)
  | error e =>
    refine ⟨n₁, .error e, ρ₁, fun n hn => ?_, hres⟩
    refine (bind_run _ _ _).trans ?_
    rw [hrun n hn]

theorem get {f : Env → Nat → EvalM α} (h : Reaches program (f ρ) ρ value) :
    Reaches program (fun n => (MonadState.get : EvalM Env) >>= fun ρ => f ρ n) ρ value := h

/-- A step in a new frame. -/
theorem inFrame {step : Nat → EvalM α} (h : Reaches program step ρ.push fun v ρ' => value v ρ'.pop) :
    Reaches program (fun n => EvalM.inFrame (step n)) ρ value := by
  obtain ⟨n, result, ρ', hrun, hres⟩ := h
  refine ⟨n, result, ρ'.pop, fun k hk => ?_, hres⟩
  refine (EvalM.inFrame_run _ _).trans ?_
  rw [hrun k hk]
  rfl

theorem define_bind {bindings : List (String × Int64)} {step : Nat → EvalM α}
    (h : Reaches program step (ρ.bind bindings) value) : Reaches program
      (fun n => bindings.forM (fun (x, v) => EvalM.define x (.int v)) >>= fun _ => step n) ρ value := by
  induction bindings generalizing ρ with
  | nil => exact h
  | cons b bs ih => exact ih h

/-- An expression, where the expressions in it have outcomes. -/
theorem eval_succ {e : Expr} {value : Int64 → Env → Prop}
    (h : Reaches program (fun n => e.evalStep (Expr.eval n)) ρ value) :
    Reaches program (fun n => Expr.eval n e) ρ value := by
  obtain ⟨n, result, ρ', hrun, hres⟩ := h
  refine ⟨n + 1, result, ρ', fun k hk => ?_, hres⟩
  obtain ⟨k, rfl⟩ : ∃ j, k = j + 1 := ⟨k - 1, by omega⟩
  exact hrun k (by omega)

theorem mono {step : Nat → EvalM α} {value' : α → Env → Prop} (h : Reaches program step ρ value)
    (hv : ∀ v ρ', value v ρ' → value' v ρ') : Reaches program step ρ value' := by
  obtain ⟨n, result, ρ', hrun, hres⟩ := h
  refine ⟨n, result, ρ', hrun, ?_⟩
  cases result with
  | ok v => exact hv v ρ' hres
  | error e => exact hres

end Reaches

section Attains
variable {program : List Expr} {visible : List String} {vars : String → Option Int64}
  {σ σ₁ σ₂ σ' : Scope Storage}

variable (program visible vars) in
/-- Steps that have the value of a computation, from one scope to another. -/
def Attains {α : Type} (step : Nat → EvalM α) (run : Run α) (σ σ' : Scope Storage) : Prop :=
  ∀ ρ v ws, Agrees program visible vars σ ρ → run ws = .ok (v, ws) → Reaches program step ρ
    fun v' ρ' => v' = v ∧ Agrees program visible vars σ' ρ' ∧ ρ.Extends ρ'

section Combinators
variable {α β : Type}

theorem Attains.pure (v : α) : Attains program visible vars (fun _ => pure v) (pure v) σ σ := by
  rintro ρ _ ws hρ ⟨⟩
  exact .pure ⟨rfl, hρ, .refl ρ⟩

theorem Attains.bind {x : Nat → EvalM α} {rx : Run α} {f : α → Nat → EvalM β} {rf : α → Run β}
    (hx : Attains program visible vars x rx σ σ₁) (happends : rx.Appends) (happends' : ∀ v, (rf v).Appends)
    (hf : ∀ v, Attains program visible vars (f v) (rf v) σ₁ σ₂) :
    Attains program visible vars (fun n => x n >>= fun v => f v n) (rx >>= rf) σ σ₂ := by
  intro ρ v ws hρ hrun
  obtain ⟨a, ha, hv⟩ := happends.bind_silent happends' hrun
  refine (hx ρ a ws hρ ha).bind ?_
  rintro _ ρ₁ ⟨rfl, hρ₁, hext₁⟩
  refine (hf _ ρ₁ v ws hρ₁ hv).mono ?_
  rintro _ ρ₂ ⟨rfl, hρ₂, hext₂⟩
  exact ⟨rfl, hρ₂, hext₁.trans hext₂⟩

/-- A pure step on the values of several computations. -/
theorem Attains.map {x : Nat → EvalM α} {rx : Run α} {f : α → EvalM β} {run : Run β}
    (hx : Attains program visible vars x rx σ σ')
    (hrun : ∀ {ws v}, run ws = .ok (v, ws) → ∃ a, rx ws = .ok (a, ws) ∧ f a = Pure.pure v) :
    Attains program visible vars (fun n => x n >>= f) run σ σ' := by
  intro ρ v ws hρ hv
  obtain ⟨a, ha, hfa⟩ := hrun hv
  refine (hx ρ a ws hρ ha).bind (f := fun v _ => f v) ?_
  rintro _ ρ' ⟨rfl, hρ', hext⟩
  rw [hfa]
  exact .pure ⟨rfl, hρ', hext⟩

end Combinators

/-! ## Constructs -/

section Constructs
variable {meaning : Expr → Run Int64} {e : Expr} {es : List Expr} {c : Call} {answers : Nat → Int64}
  {call : String → List Int64 → Run Int64}

theorem attains_cons (h : Attains program visible vars (Expr.eval · e) (meaning e) σ σ₁)
    (hes : Attains program visible vars (fun n => es.mapM (Expr.eval n)) (Run.inOrder (es.map meaning)) σ₁ σ')
    (happends : ∀ e, (meaning e).Appends) :
    Attains program visible vars (fun n => (e :: es).mapM (Expr.eval n))
      (Run.inOrder ((e :: es).map meaning)) σ σ' := by
  have hstep : (fun n => (e :: es).mapM (Expr.eval n)) = fun n => Expr.eval n e >>= fun v =>
      es.mapM (Expr.eval n) >>= fun vs => pure (v :: vs) := funext fun n => List.mapM_cons
  have hrest : (Run.inOrder (es.map meaning)).Appends := .inOrder (by simpa using fun e _ => happends e)
  rw [hstep, List.map_cons, Run.inOrder]
  refine h.bind (happends e) (fun v => hrest.bind fun vs => .pure _) fun v => ?_
  exact hes.bind hrest (fun vs => .pure _) fun vs => .pure _

theorem attains_single (h : Attains program visible vars (Expr.eval · e) (meaning e) σ σ')
    (happends : ∀ e, (meaning e).Appends) :
    Attains program visible vars (fun n => [e].mapM (Expr.eval n)) (Run.inOrder ([e].map meaning)) σ σ' :=
  attains_cons h (.pure []) happends

theorem attains_sequence (hne : es ≠ []) (h : Attains program visible vars (fun n => es.mapM (Expr.eval n))
    (Run.inOrder (es.map meaning)) σ σ') :
    Attains program visible vars (fun n => evalSequence (Expr.eval n) es) (Run.last (es.map meaning)) σ σ' := by
  have hstep : (fun n => evalSequence (Expr.eval n) es) = fun n => es.mapM (Expr.eval n) >>= fun vs =>
      pure (vs.getLastD 0) := funext fun n => evalSequence_eq es
  rw [hstep, Run.last_eq (by simpa using hne)]
  refine h.map fun hv => ?_
  obtain ⟨vs, ws₁, hvs, hv⟩ := Run.bind_ok hv
  cases hv
  exact ⟨vs, hvs, rfl⟩

theorem attains_head (h : Attains program visible vars (fun n => [e].mapM (Expr.eval n))
    (Run.inOrder ([e].map meaning)) σ σ') : Attains program visible vars (Expr.eval · e) (meaning e) σ σ' := by
  have hseq := attains_sequence (List.cons_ne_nil e []) h
  simp only [evalSequence_singleton] at hseq
  exact hseq

theorem attains_arith (op : ArithOp) (hargs : c.args ≠ [])
    (h : Attains program visible vars (fun n => c.args.mapM (Expr.eval n)) (Run.inOrder (c.args.map meaning)) σ σ') :
    Attains program visible vars (fun n => c.evalArith (Expr.eval n) op) (Run.arithmetic op (c.args.map meaning))
      σ σ' := by
  simp only [evalArith_eq op hargs]
  refine h.map fun hv => ?_
  obtain ⟨a, vs, hvs, hfold⟩ := Run.arithmetic_ok hv
  exact ⟨a :: vs, hvs, by simp only [hfold]⟩

theorem attains_compare (op : CompareOp) {x y : Expr} (hargs : c.args = [x, y])
    (h : Attains program visible vars (fun n => [x, y].mapM (Expr.eval n)) (Run.inOrder ([x, y].map meaning)) σ σ') :
    Attains program visible vars (fun n => c.evalCompare (Expr.eval n) op) (Run.compare op (c.args.map meaning))
      σ σ' := by
  simp only [evalCompare_eq op hargs]
  rw [hargs]
  refine h.map fun {ws v} hv => ?_
  change Run.compare op [meaning x, meaning y] ws = _ at hv
  rw [Run.compare_eq] at hv
  obtain ⟨vs, ws₁, hvs, hv⟩ := Run.bind_ok hv
  match vs with
  | [a, b] =>
    cases hv
    exact ⟨[a, b], hvs, rfl⟩
  | [] | [_] | _ :: _ :: _ :: _ => cases hv

theorem attains_branch {test : Call} {x y yes : Expr} {no : Option Expr} {op : CompareOp}
    {known : String → Nat → Prop}
    (hop : Builtin.ofHead? test.head = some (.compare op)) (hargs : test.args = [x, y])
    (span : Span) (h₂ : Resolved known (Placed program visible) true σ₁ [yes] σ₂)
    (h₃ : Resolved known (Placed program visible) true σ₂ no.toList σ')
    (happends : ∀ e : Expr, (e.meaning answers call vars).Appends)
    (hxy : Attains program visible vars (fun n => [x, y].mapM (Expr.eval n))
      (Run.inOrder ([x, y].map (Expr.meaning answers call vars))) σ σ₁)
    (hyes : Attains program visible vars (Expr.eval · yes) (yes.meaning answers call vars) σ₁ σ₂)
    (hno : ∀ e, no = some e →
      Attains program visible vars (Expr.eval · e) (e.meaning answers call vars) σ₂ σ') :
    Attains program visible vars (fun n => (Expr.branch test yes no span).evalStep (Expr.eval n))
      ((Expr.branch test yes no span).meaning answers call vars) σ σ' := by
  rw [Expr.meaning_branch, Run.conditional, hop]
  simp only [evalStep_branch, hop]
  refine (attains_compare op hargs hxy).bind (.compare op (by simpa using fun e _ => happends e)) (fun b => ?_)
    fun b => ?_
  · cases b with
    | true => exact happends yes
    | false =>
      cases no with
      | none => exact .pure 0
      | some e => exact happends e
  cases b with
  | true =>
    intro ρ v ws hρ hv
    refine (hyes ρ v ws hρ hv).mono ?_
    rintro _ ρ' ⟨rfl, hρ', hext⟩
    exact ⟨rfl, hρ'.skip h₃, hext⟩
  | false =>
    intro ρ v ws hρ hv
    have hρ := hρ.skip h₂
    cases no with
    | none =>
      cases h₃
      exact Attains.pure 0 ρ v ws hρ hv
    | some e => exact hno e rfl ρ v ws hρ hv

theorem attains_user {abi : IR.Abi} {m : IR.Module} (hm : CompiledProgram abi program m)
    (hparams : ∀ d ∈ definitions program, d.params.Nodup) {depth : Nat} (hop : Builtin.ofHead? c.head = none)
    (hσ : σ.lookup? c.head = some .function) (hknown : Defines program c.head c.args.length)
    (h : Attains program visible vars (fun n => c.args.mapM (Expr.eval n))
      (Run.inOrder (c.args.map (Expr.meaning answers (callMeaning program answers (depth + 1)) vars))) σ σ')
    (hbody : ∀ {visible vars σ σ' es}, Resolved (Defines program) (Placed program visible) false σ es σ' →
      Attains program visible vars (fun n => es.mapM (Expr.eval n))
        (Run.inOrder (es.map (Expr.meaning answers (callMeaning program answers depth) vars))) σ σ') :
    Attains program visible vars (fun n => c.evalUser (Expr.eval n))
      (c.meaning answers (callMeaning program answers (depth + 1)) vars) σ σ' := by
  intro ρ v ws hρ hv
  rw [Call.meaning_user hop] at hv
  have happends : ∀ depth name args, (callMeaning program answers depth name args).Appends :=
    callMeaning_appends program
  obtain ⟨vs, hvs, hv⟩ := Run.Appends.bind_silent
    (.inOrder (by simpa using fun e _ => e.meaning_appends (happends _))) (happends _ _) hv
  have hlen := Run.length_of_inOrder hvs
  rw [List.length_map] at hlen
  refine .get ?_
  match hl : ρ.lookup? c.head with
  | none => exact .fail (.absent (hρ.functions _ hσ hl)) _
  | some (.int _) =>
    obtain ⟨d, hd, hname, -⟩ := hknown
    obtain ⟨frame, hframe, hmem⟩ := Scope.exists_of_lookup? hl
    exact .fail (.hidden (hname ▸ List.mem_map_of_mem hd) (hρ.frames.fits hframe hmem)) _
  | some (.function d) =>
    have hbound := Scope.exists_of_lookup? hl
    obtain ⟨hd, hname⟩ := hρ.definition hm hbound
    have harity : d.arity = c.args.length := by
      obtain ⟨d', hd', hname', harity⟩ := hknown
      rwa [List.inj_on_of_nodup_map hm.distinct hd hd' (hname.trans hname'.symm)]
    simp only [if_pos harity]
    refine (h ρ vs ws hρ hvs).bind ?_
    rintro _ ρ₁ ⟨rfl, hρ₁, hext₁⟩
    obtain ⟨hne, visible', σ₁, σ₂, hres, hagrees⟩ :=
      hρ₁.call hm hparams (hext₁.exists_frame hbound) (hlen.trans harity.symm)
    rw [← hname, callMeaning_succ (find?_of_nodup hm.distinct hd)] at hv
    refine .inFrame (.define_bind ?_)
    refine (attains_sequence hne (hbody hres) _ v ws hagrees hv).mono ?_
    rintro _ ρ₂ ⟨rfl, -, hext₂⟩
    have hpop : ρ₂.pop = ρ₁ := ((Scope.extends_bind ρ₁.push _).trans hext₂).pop_eq
    exact ⟨rfl, hpop.symm ▸ hρ₁, hpop.symm ▸ hext₁⟩

end Constructs

/-! ## The interpreter -/

section Interpreter

/-- Expressions, where calls of functions attain their meaning. -/
theorem resolved_attains {known : String → Nat → Prop} {call : String → List Int64 → Run Int64}
    {answers : Nat → Int64} (happends : ∀ e : Expr, (e.meaning answers call vars).Appends)
    (hmain : "main" ∈ (topDefinitions program).map (·.name))
    (huser : ∀ {c : Call} {σ σ' : Scope Storage}, Builtin.ofHead? c.head = none →
      σ.lookup? c.head = some .function → known c.head c.args.length →
      Attains program visible vars (fun n => c.args.mapM (Expr.eval n))
        (Run.inOrder (c.args.map (Expr.meaning answers call vars))) σ σ' →
      Attains program visible vars (fun n => c.evalUser (Expr.eval n)) (c.meaning answers call vars) σ σ')
    {b : Bool} {es : List Expr} (h : Resolved known (Placed program visible) b σ es σ') :
    Attains program visible vars (fun n => es.mapM (Expr.eval n))
      (Run.inOrder (es.map (Expr.meaning answers call vars))) σ σ' := by
  have hstep : ∀ {e : Expr} {σ σ' : Scope Storage}, Attains program visible vars
      (fun n => e.evalStep (Expr.eval n)) (e.meaning answers call vars) σ σ' →
      Attains program visible vars (fun n => [e].mapM (Expr.eval n))
        (Run.inOrder ([e].map (Expr.meaning answers call vars))) σ σ' := by
    intro e σ σ' h
    exact attains_single (fun ρ v ws hρ hv => (h ρ v ws hρ hv).eval_succ) happends
  induction h with
  | nil => exact .pure []
  | cons _ _ ih₁ ih₂ => exact attains_cons (attains_head ih₁) ih₂ happends
  | int b σ v s => exact hstep (.pure v)
  | @name b σ x r hx s =>
    refine hstep ?_
    intro ρ v ws hρ hv
    obtain ⟨w, hw, hvars⟩ := hρ.slots x r hx
    rw [Expr.meaning, hvars] at hv
    cases hv
    refine .get ?_
    simp only [hw]
    exact .pure ⟨rfl, hρ, .refl ρ⟩
  | @define b σ d hd s =>
    refine hstep ?_
    rintro ρ _ ws hρ ⟨⟩
    refine ⟨0, .ok 0, ρ.define d.name (.function d), fun n _ => ?_, rfl, hρ.define hd, .define ρ _ _⟩
    change (Expr.define d s).evalStep (Expr.eval n) ρ = _
    rw [Expr.evalStep, hd.isMain_eq_false hmain]
    rfl
  | @arith b σ σ' c op hop hargs s h ih =>
    refine hstep ?_
    have hmeaning : (Expr.call c s).meaning answers call vars =
        Run.arithmetic op (c.args.map (Expr.meaning answers call vars)) := Call.meaning_arith hop
    rw [hmeaning]
    simp only [Expr.evalStep, Call.eval, hop]
    exact attains_arith op hargs ih
  | @compare b σ σ' c op x y hop hargs s h ih =>
    refine hstep ?_
    have hmeaning : (Expr.call c s).meaning answers call vars = _ := Call.meaning_compare hop
    rw [hmeaning]
    simp only [Expr.evalStep, Call.eval, hop]
    have hcompare : (Run.compare op (c.args.map (Expr.meaning answers call vars))).Appends :=
      .compare op (by simpa using fun e _ => happends e)
    refine (attains_compare op hargs ih).bind hcompare (fun b => ?_) fun b => ?_
    · cases b <;> exact .pure _
    · cases b <;> exact .pure _
  | @write b σ σ' c fd e length sr hop hargs s h ih =>
    refine hstep ?_
    intro ρ v ws _ hv
    have hmeaning : (Expr.call c s).meaning answers call vars = _ := Call.meaning_write hop hargs
    rw [hmeaning] at hv
    exact absurd hv (Run.Appends.write_not_silent (happends _) (happends _) (happends _) ws v)
  | user hop hσ hknown s h ih =>
    refine hstep ?_
    simp only [Expr.evalStep, Call.eval, hop]
    exact huser hop hσ hknown ih
  | branch hop hargs s h₁ h₂ h₃ ih₁ ih₂ ih₃ =>
    refine hstep (attains_branch hop hargs s h₂ h₃ happends ih₁ (attains_head ih₂) ?_)
    intro e he
    subst he
    exact attains_head ih₃

variable {abi : IR.Abi} {m : IR.Module} {answers : Nat → Int64}

/-- Whatever the program means without writing, the interpreter computes or misses a function. -/
theorem eval_attains (hm : CompiledProgram abi program m)
    (hparams : ∀ d ∈ definitions program, d.params.Nodup)
    (hmain : "main" ∈ (topDefinitions program).map (·.name)) (depth : Nat) {visible : List String}
    {vars : String → Option Int64} {b : Bool} {σ σ' : Scope Storage} {es : List Expr}
    (h : Resolved (Defines program) (Placed program visible) b σ es σ') :
    Attains program visible vars (fun n => es.mapM (Expr.eval n))
      (Run.inOrder (es.map (Expr.meaning answers (callMeaning program answers depth) vars))) σ σ' := by
  have happends : ∀ depth (vars : String → Option Int64) (e : Expr),
      (e.meaning answers (callMeaning program answers depth) vars).Appends :=
    fun depth vars e => e.meaning_appends (callMeaning_appends program depth)
  induction depth generalizing visible vars b σ es σ' with
  | zero =>
    refine resolved_attains (happends _ _) hmain ?_ h
    intro c σ σ' hop _ _ _ ρ v ws _ hv
    rw [Call.meaning_user hop] at hv
    obtain ⟨vs, ws₁, -, hv⟩ := Run.bind_ok hv
    cases hv
  | succ depth ih =>
    refine resolved_attains (happends _ _) hmain ?_ h
    intro c σ σ' hop hσ hknown hargs
    exact attains_user hm hparams hop hσ hknown hargs ih

end Interpreter
end Attains
end SmallLisp
