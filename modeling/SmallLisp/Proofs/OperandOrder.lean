import SmallLisp.Proofs.Depth

/-! # Expressions evaluated in turn

The operands of a call are evaluated from left to right, each in the environment that the one before it leaves, until
one fails. What is said here does not mention depths: an outcome is had at every depth that is great enough.
-/
namespace SmallLisp
open EvalM

def Expr.Ends (e : Expr) (ρ : Env) (result : Except EvalError Int64) (ρ' : Env) : Prop :=
  ∃ depth, e.eval depth ρ = some (result, ρ')

inductive ValuesInTurn : List Expr → Env → List Int64 → Env → Prop
  | nil (ρ : Env) : ValuesInTurn [] ρ [] ρ
  | cons {e : Expr} {es : List Expr} {ρ ρ₁ ρ₂ : Env} {v : Int64} {vs : List Int64} (he : e.Ends ρ (.ok v) ρ₁)
      (hes : ValuesInTurn es ρ₁ vs ρ₂) : ValuesInTurn (e :: es) ρ (v :: vs) ρ₂

/-- Expressions of which one fails after others that have values; those behind it may be any. -/
def FailsInTurn (es : List Expr) (ρ : Env) (error : EvalError) (ρ' : Env) : Prop :=
  ∃ before e after vs ρ₁, es = before ++ e :: after ∧ ValuesInTurn before ρ vs ρ₁ ∧
    e.Ends ρ₁ (.error error) ρ'

/-- Expressions each of which ends in the environment that those before it leave, as far as the first that fails. -/
inductive EndInTurn : List Expr → Env → Prop
  | nil (ρ : Env) : EndInTurn [] ρ
  | fails {e : Expr} {es : List Expr} {ρ ρ₁ : Env} {error : EvalError} (he : e.Ends ρ (.error error) ρ₁) :
      EndInTurn (e :: es) ρ
  | cons {e : Expr} {es : List Expr} {ρ ρ₁ : Env} {v : Int64} (he : e.Ends ρ (.ok v) ρ₁)
      (hes : EndInTurn es ρ₁) : EndInTurn (e :: es) ρ

section Turns
variable {e : Expr} {es : List Expr} {ρ ρ₁ ρ' : Env} {v : Int64} {vs : List Int64} {error : EvalError}

theorem Expr.Ends.mono {n k : Nat} {r : Except EvalError Int64 × Env} (h : n ≤ k) (hn : e.eval n ρ = some r) :
    e.eval k ρ = some r := e.eval_below h ρ r hn

/-- An expression ends in one way. -/
theorem Expr.Ends.unique {r r' : Except EvalError Int64} (h : e.Ends ρ r ρ₁) (h' : e.Ends ρ r' ρ') :
    r' = r ∧ ρ' = ρ₁ := by
  obtain ⟨n, hn⟩ := h
  obtain ⟨k, hk⟩ := h'
  have he := (mono (Nat.le_max_right n k) hk).symm.trans (mono (Nat.le_max_left n k) hn)
  cases he
  exact ⟨rfl, rfl⟩

theorem FailsInTurn.head (he : e.Ends ρ (.error error) ρ') : FailsInTurn (e :: es) ρ error ρ' :=
  ⟨[], e, es, [], ρ, rfl, .nil ρ, he⟩

theorem FailsInTurn.tail (he : e.Ends ρ (.ok v) ρ₁) (hes : FailsInTurn es ρ₁ error ρ') :
    FailsInTurn (e :: es) ρ error ρ' := by
  obtain ⟨before, f, after, vs, ρ₂, rfl, hbefore, hf⟩ := hes
  exact ⟨e :: before, f, after, v :: vs, ρ₂, rfl, .cons he hbefore, hf⟩

theorem ValuesInTurn.length_eq (h : ValuesInTurn es ρ vs ρ') : vs.length = es.length := by
  induction h with
  | nil => rfl
  | cons _ _ ih => rw [List.length_cons, List.length_cons, ih]

/-- Expressions that end in turn all have values, or one of them fails. -/
theorem EndInTurn.values_or_fails (h : EndInTurn es ρ) :
    (∃ vs ρ', ValuesInTurn es ρ vs ρ') ∨ ∃ error ρ', FailsInTurn es ρ error ρ' := by
  induction h with
  | nil ρ => exact .inl ⟨[], ρ, .nil ρ⟩
  | fails he => exact .inr ⟨_, _, .head he⟩
  | cons he _ ih =>
    rcases ih with ⟨vs, ρ', hes⟩ | ⟨error, ρ', hes⟩
    · exact .inl ⟨_, ρ', .cons he hes⟩
    · exact .inr ⟨error, ρ', .tail he hes⟩

/-! ## Runs over a list -/

/-- A run over a list of expressions evaluates them in turn. -/
theorem turns_of_mapM {n : Nat} {result : Except EvalError (List Int64)}
    (h : es.mapM (Expr.eval n) ρ = some (result, ρ')) :
    (∃ vs, result = .ok vs ∧ ValuesInTurn es ρ vs ρ') ∨
    ∃ error, result = .error error ∧ FailsInTurn es ρ error ρ' := by
  induction es generalizing ρ result with
  | nil =>
    cases h
    exact .inl ⟨[], rfl, .nil _⟩
  | cons e es ih =>
    rw [List.mapM_cons] at h
    rcases bind_cases h with ⟨v, ρ₁, he, h⟩ | ⟨error, he, rfl⟩
    · rcases bind_cases h with ⟨vs, ρ₂, hes, h⟩ | ⟨error, hes, rfl⟩
      · cases h
        rcases ih hes with ⟨_, hr, hturn⟩ | ⟨_, hr, -⟩
        · cases hr
          exact .inl ⟨v :: vs, rfl, .cons ⟨n, he⟩ hturn⟩
        · cases hr
      · rcases ih hes with ⟨_, hr, -⟩ | ⟨_, hr, hfails⟩
        · cases hr
        · cases hr
          exact .inr ⟨error, rfl, .tail ⟨n, he⟩ hfails⟩
    · exact .inr ⟨error, rfl, .head ⟨n, he⟩⟩

theorem mapM_cons_of_ok {n : Nat} (he : e.eval n ρ = some (.ok v, ρ₁)) :
    (e :: es).mapM (Expr.eval n) ρ = (es.mapM (Expr.eval n) >>= fun vs => pure (v :: vs)) ρ₁ := by
  rw [List.mapM_cons, bind_run, he]

/-- Expressions that have values in turn have them in a run over the list. -/
theorem ValuesInTurn.exists_mapM (h : ValuesInTurn es ρ vs ρ') :
    ∃ n, es.mapM (Expr.eval n) ρ = some (.ok vs, ρ') := by
  induction h with
  | nil => exact ⟨0, rfl⟩
  | @cons e es ρ ρ₁ ρ₂ v vs he _ ih =>
    obtain ⟨n, hn⟩ := he
    obtain ⟨k, hk⟩ := ih
    have hn' := Expr.Ends.mono (Nat.le_max_left n k) hn
    have hk' := mapM_below (Expr.eval_below (Nat.le_max_right n k)) es ρ₁ _ hk
    refine ⟨max n k, ?_⟩
    rw [mapM_cons_of_ok hn', bind_run, hk']
    rfl

/-- A run over the list ends with the first failure, whatever is behind it. -/
theorem FailsInTurn.exists_mapM (h : FailsInTurn es ρ error ρ') :
    ∃ n, es.mapM (Expr.eval n) ρ = some (.error error, ρ') := by
  obtain ⟨before, e, after, vs, ρ₁, rfl, hbefore, he⟩ := h
  induction hbefore with
  | nil ρ =>
    obtain ⟨n, hn⟩ := he
    refine ⟨n, ?_⟩
    rw [List.nil_append, List.mapM_cons, bind_run, hn]
  | @cons f es ρ ρ₂ ρ₃ v vs hf _ ih =>
    obtain ⟨n, hn⟩ := hf
    obtain ⟨k, hk⟩ := ih he
    have hn' := Expr.Ends.mono (Nat.le_max_left n k) hn
    have hk' := mapM_below (Expr.eval_below (Nat.le_max_right n k)) _ ρ₂ _ hk
    refine ⟨max n k, ?_⟩
    rw [List.cons_append, mapM_cons_of_ok hn', bind_run, hk']

/-- Expressions have values in turn in one way, and then none of them fails. -/
theorem ValuesInTurn.unique (h : ValuesInTurn es ρ vs ρ₁) :
    (∀ ws ρ', ValuesInTurn es ρ ws ρ' → ws = vs ∧ ρ' = ρ₁) ∧
    ∀ error ρ', ¬ FailsInTurn es ρ error ρ' := by
  have hrun {result : Except EvalError (List Int64)} {ρ' : Env}
      (h' : ∃ n, es.mapM (Expr.eval n) ρ = some (result, ρ')) : result = .ok vs ∧ ρ' = ρ₁ := by
    obtain ⟨n, hn⟩ := h.exists_mapM
    obtain ⟨k, hk⟩ := h'
    have hn' := mapM_below (Expr.eval_below (Nat.le_max_left n k)) es ρ _ hn
    have hk' := mapM_below (Expr.eval_below (Nat.le_max_right n k)) es ρ _ hk
    cases hk'.symm.trans hn'
    exact ⟨rfl, rfl⟩
  refine ⟨fun ws ρ' hws => ?_, fun error ρ' hfails => ?_⟩
  · obtain ⟨hr, hρ⟩ := hrun hws.exists_mapM
    exact ⟨Except.ok.inj hr, hρ⟩
  · cases (hrun hfails.exists_mapM).1

end Turns
end SmallLisp
