import SmallLisp.Proofs.OperandOrder
import Mathlib.Algebra.Ring.Int.Defs

/-! # Outcomes of arithmetic calls

An arithmetic call ends with the fault of the first operand that fails. Where all operands have values, the first zero
among the divisors is a fault at that operand; otherwise the call has a value, which for sums, differences and products
is that of the operands as integers, cut to 64 bits once.
-/
namespace SmallLisp
open EvalM

namespace ArithOp

def Divides (op : ArithOp) : Prop := op = div ∨ op = rem

/-- The value of an operation on integers: of a first operand and all others together, or step by step for quotients
and remainders, which are cut toward zero. -/
def combine (op : ArithOp) (v : Int64) (vs : List Int64) : Int64 :=
  match op with
  | add => .ofInt (v.toInt + (vs.map Int64.toInt).sum)
  | sub => .ofInt (v.toInt - (vs.map Int64.toInt).sum)
  | mul => .ofInt (v.toInt * (vs.map Int64.toInt).prod)
  | div => vs.foldl (fun a b => .ofInt (a.toInt.tdiv b.toInt)) v
  | rem => vs.foldl (fun a b => .ofInt (a.toInt.tmod b.toInt)) v

/-- What an arithmetic call of `args` comes to where these have the values `v` and `vs`. -/
inductive Outcome (op : ArithOp) (args : List Expr) (v : Int64) (vs : List Int64) : Except EvalError Int64 → Prop
  /-- The first zero among the divisors is reported at the operand that it is the value of. -/
  | zeroDivisor {i : Nat} {e : Expr} (hop : op.Divides) (hzero : vs[i]? = some 0) (hfirst : 0 ∉ vs.take i)
      (he : args[i + 1]? = some e) : Outcome op args v vs (.error ⟨.divisionByZero, e.span⟩)
  | value (h : op.Divides → 0 ∉ vs) : Outcome op args v vs (.ok (op.combine v vs))

section Fold
variable {op : ArithOp} {v : Int64} {vs : List Int64}

theorem ofInt_tdiv (a b : Int64) : Int64.ofInt (a.toInt.tdiv b.toInt) = a / b := by
  rw [← Int64.toInt_inj, Int64.toInt_ofInt, Int64.toInt_div]

theorem ofInt_tmod (a b : Int64) : Int64.ofInt (a.toInt.tmod b.toInt) = a % b := by
  rw [← Int64.toInt_mod, Int64.ofInt_toInt]

/-- One more operand is combined with the first as a single step does it. -/
theorem apply_eq_combine {a : Int64} (h : op.Divides → a ≠ 0) (vs : List Int64) :
    ∃ w, op.apply v a = some w ∧ op.combine w vs = op.combine v (a :: vs) := by
  cases op with
  | add =>
    refine ⟨v + a, rfl, ?_⟩
    simp only [combine, List.map_cons, List.sum_cons, Int64.ofInt_add, Int64.ofInt_toInt, Int64.add_assoc]
  | sub =>
    refine ⟨v - a, rfl, ?_⟩
    simp only [combine, List.map_cons, List.sum_cons, Int64.ofInt_sub, Int64.ofInt_add, Int64.ofInt_toInt]
    grind
  | mul =>
    refine ⟨v * a, rfl, ?_⟩
    simp only [combine, List.map_cons, List.prod_cons, Int64.ofInt_mul, Int64.ofInt_toInt, Int64.mul_assoc]
  | div =>
    refine ⟨v / a, if_neg (h (.inl rfl)), ?_⟩
    rw [combine, combine, List.foldl_cons, ofInt_tdiv]
  | rem =>
    refine ⟨v % a, if_neg (h (.inr rfl)), ?_⟩
    rw [combine, combine, List.foldl_cons, ofInt_tmod]

theorem combine_nil (op : ArithOp) (v : Int64) : op.combine v [] = v := by
  cases op <;> simp [combine]

/-- The fold over operands without a zero divisor has the combined value. -/
theorem fold_eq_combine (h : op.Divides → 0 ∉ vs) : op.fold v vs = .ok (op.combine v vs) := by
  induction vs generalizing v with
  | nil => rw [fold, combine_nil]
  | cons a as ih =>
    have ha : op.Divides → a ≠ 0 := fun hop ha => h hop (ha ▸ List.mem_cons_self)
    obtain ⟨w, happly, hcombine⟩ := apply_eq_combine ha as
    have has := ih (v := w) fun hop ha => h hop (List.mem_cons_of_mem a ha)
    rw [fold, happly, ← hcombine]
    simp only [has]
    rfl

/-- The fold stops at the first zero divisor. -/
theorem fold_eq_error {i : Nat} (hop : op.Divides) (hzero : vs[i]? = some 0) (hfirst : 0 ∉ vs.take i) :
    op.fold v vs = .error i := by
  induction vs generalizing v i with
  | nil => cases hzero
  | cons a as ih =>
    cases i with
    | zero =>
      obtain rfl : a = 0 := by simpa using hzero
      rw [fold, apply_eq_none_iff.mpr ⟨hop, rfl⟩]
    | succ i =>
      rw [List.take_succ_cons, List.mem_cons, not_or] at hfirst
      obtain ⟨w, happly, -⟩ := apply_eq_combine (fun _ => Ne.symm hfirst.1) as
      rw [fold, happly]
      simp only [ih hzero hfirst.2]
      rfl

/-- There is always an outcome. -/
theorem exists_outcome {args : List Expr} (hlength : args.length = vs.length + 1) :
    ∃ result, op.Outcome args v vs result := by
  by_cases h : op.Divides ∧ 0 ∈ vs
  · obtain ⟨before, after, rfl, hfirst⟩ := List.eq_append_cons_of_mem h.2
    have he : before.length + 1 < args.length := by
      rw [hlength, List.length_append, List.length_cons]
      omega
    exact ⟨_, .zeroDivisor h.1 (i := before.length) (by simp) (by simpa using hfirst)
      (List.getElem?_eq_getElem he)⟩
  · exact ⟨_, .value fun hop hzero => h ⟨hop, hzero⟩⟩

end Fold
end ArithOp

section Calls
variable {op : ArithOp} {c : Call} {ρ ρ' : Env} {s : Span}

theorem Expr.eval_arith (hop : Builtin.ofHead? c.head = some (.arith op)) (n : Nat) :
    (Expr.call c s).eval (n + 1) = c.evalArith (Expr.eval n) op := by
  simp only [Expr.eval, Expr.evalStep, Call.eval, hop]

/-- A call ends with the fault of the first operand that fails. -/
theorem FailsInTurn.call_ends {error : EvalError} (hop : Builtin.ofHead? c.head = some (.arith op))
    (h : FailsInTurn c.args ρ error ρ') : (Expr.call c s).Ends ρ (.error error) ρ' := by
  have hne : c.args ≠ [] := by
    obtain ⟨before, e, after, -, -, hargs, -⟩ := h
    simp [hargs]
  obtain ⟨n, hn⟩ := h.exists_mapM
  refine ⟨n + 1, ?_⟩
  rw [Expr.eval_arith hop, evalArith_eq op hne, bind_run, hn]

/-- A call whose operands have values ends with the outcome for these. -/
theorem ValuesInTurn.call_ends {v : Int64} {vs : List Int64} {result : Except EvalError Int64}
    (hop : Builtin.ofHead? c.head = some (.arith op)) (h : ValuesInTurn c.args ρ (v :: vs) ρ')
    (hr : op.Outcome c.args v vs result) : (Expr.call c s).Ends ρ result ρ' := by
  have hne : c.args ≠ [] := List.ne_nil_of_length_pos (by simp [← h.length_eq])
  obtain ⟨n, hn⟩ := h.exists_mapM
  refine ⟨n + 1, ?_⟩
  rw [Expr.eval_arith hop, evalArith_eq op hne, bind_run, hn]
  cases hr with
  | @zeroDivisor i e hdiv hzero hfirst he =>
    simp only [ArithOp.fold_eq_error hdiv hzero hfirst, List.getElem?_tail, he]
    rfl
  | value hzero =>
    simp only [ArithOp.fold_eq_combine hzero]
    rfl

/-- An arithmetic call, whose operands end in turn, ends with the fault of the first of them that fails, whatever
operands are behind it, or with the outcome for the values of all. -/
theorem Expr.ends_arith_iff (hop : Builtin.ofHead? c.head = some (.arith op)) (hne : c.args ≠ [])
    (hends : EndInTurn c.args ρ) (s : Span) :
    (∃ before e after vs ρ₁ error ρ₂, c.args = before ++ e :: after ∧ ValuesInTurn before ρ vs ρ₁ ∧
      e.Ends ρ₁ (.error error) ρ₂ ∧ ∀ later result ρ',
        (Expr.call ⟨c.head, before ++ e :: later, c.span⟩ s).Ends ρ result ρ' ↔
          result = .error error ∧ ρ' = ρ₂) ∨
    (∀ error ρ', ¬ FailsInTurn c.args ρ error ρ') ∧
      ∃ v vs ρ₁, ValuesInTurn c.args ρ (v :: vs) ρ₁ ∧ ∀ result ρ',
        (Expr.call c s).Ends ρ result ρ' ↔ op.Outcome c.args v vs result ∧ ρ' = ρ₁ := by
  rcases hends.values_or_fails with
    ⟨_ | ⟨v, vs⟩, ρ₁, hvalues⟩ | ⟨error, ρ₂, before, e, after, vs, ρ₁, hargs, hbefore, he⟩
  · exact absurd (List.length_eq_zero_iff.mp hvalues.length_eq.symm) hne
  · obtain ⟨outcome, houtcome⟩ := op.exists_outcome (v := v) hvalues.length_eq.symm
    refine .inr ⟨hvalues.unique.2, v, vs, ρ₁, hvalues, fun result ρ' => ⟨fun h => ?_, ?_⟩⟩
    · obtain ⟨rfl, rfl⟩ := (hvalues.call_ends hop houtcome).unique h
      exact ⟨houtcome, rfl⟩
    · rintro ⟨hr, rfl⟩
      exact hvalues.call_ends hop hr
  · refine .inl ⟨before, e, after, vs, ρ₁, error, ρ₂, hargs, hbefore, he, fun later result ρ' => ?_⟩
    have hcall : (Expr.call ⟨c.head, before ++ e :: later, c.span⟩ s).Ends ρ (.error error) ρ₂ :=
      FailsInTurn.call_ends hop ⟨before, e, later, vs, ρ₁, rfl, hbefore, he⟩
    refine ⟨fun h => hcall.unique h, ?_⟩
    rintro ⟨rfl, rfl⟩
    exact hcall

end Calls

/-- The call `(/ (def f () 5) (f) 0)`, where the second operand is a call of what the first defines. -/
def definingDivision : Call :=
  ⟨"/",
    [.define ⟨"f", [], [.int 5 default], default⟩ default, .call ⟨"f", [], default⟩ default,
      .int 0 ⟨20, 21⟩], default⟩

/-- The second operand has a value because of the first, and the third is the zero that is reported. -/
theorem Expr.ends_arith_iff_definingDivision : EndInTurn definingDivision.args .empty ∧
    ∃ ρ₁, ∀ result ρ', (Expr.call definingDivision default).Ends .empty result ρ' ↔
      result = .error ⟨.divisionByZero, ⟨20, 21⟩⟩ ∧ ρ' = ρ₁ := by
  have hends : EndInTurn definingDivision.args .empty :=
    .cons ⟨1, rfl⟩ (.cons ⟨2, rfl⟩ (.cons ⟨1, rfl⟩ (.nil _)))
  have hvalues : ValuesInTurn definingDivision.args .empty [0, 5, 0] _ :=
    .cons ⟨1, rfl⟩ (.cons ⟨2, rfl⟩ (.cons ⟨1, rfl⟩ (.nil _)))
  have hop : Builtin.ofHead? definingDivision.head = some (.arith .div) := rfl
  refine ⟨hends, ?_⟩
  rcases Expr.ends_arith_iff hop (by decide) hends default with
    ⟨before, e, after, vs, ρ₁, error, ρ₂, hargs, hbefore, he, -⟩ | ⟨-, v, vs, ρ₁, hvs, hiff⟩
  · exact absurd ⟨before, e, after, vs, ρ₁, hargs, hbefore, he⟩ (hvalues.unique.2 _ _)
  · obtain ⟨hlist, rfl⟩ := hvalues.unique.1 _ _ hvs
    obtain ⟨rfl, rfl⟩ := List.cons.inj hlist
    have houtcome : ArithOp.div.Outcome definingDivision.args 0 [5, 0] (.error ⟨.divisionByZero, ⟨20, 21⟩⟩) :=
      .zeroDivisor (i := 1) (e := .int 0 ⟨20, 21⟩) (.inl rfl) rfl (by decide) rfl
    refine ⟨_, fun result ρ' => ⟨fun h => ((hiff _ _).mpr ⟨houtcome, rfl⟩).unique h, ?_⟩⟩
    rintro ⟨rfl, rfl⟩
    exact (hiff _ _).mpr ⟨houtcome, rfl⟩

end SmallLisp
