import SmallLisp.Proofs.Outcomes

/-! # The depth does not matter

Whatever outcome the interpreter has at a depth it has at every greater depth. A step that has an outcome
wherever another has one is above it, and the constructs of the language keep this.
-/
namespace SmallLisp
namespace EvalM
variable {α β : Type}

def Below (x y : EvalM α) : Prop := ∀ ρ r, x ρ = some r → y ρ = some r

namespace Below
variable {x y : EvalM α}

theorem refl (x : EvalM α) : Below x x := fun _ _ h => h

theorem bind {f g : α → EvalM β} (h : Below x y) (hf : ∀ v, Below (f v) (g v)) : Below (x >>= f) (y >>= g) := by
  rintro ρ ⟨result, ρ'⟩ hr
  rcases bind_cases hr with ⟨v, ρ₁, hx, hr⟩ | ⟨e, hx, rfl⟩
  · rw [bind_run, h ρ _ hx]
    exact hf v ρ₁ _ hr
  · rw [bind_run, h ρ _ hx]

theorem inFrame (h : Below x y) : Below (inFrame x) (inFrame y) := by
  intro ρ r hr
  rw [inFrame_run] at hr ⊢
  obtain ⟨p, hx, he⟩ := Option.map_eq_some_iff.mp hr
  rw [h _ _ hx, ← he]
  rfl

end Below
end EvalM

open EvalM

section Steps
variable {f g : Expr → EvalM Int64} (h : ∀ e, Below (f e) (g e))
include h

theorem mapM_below (es : List Expr) : Below (es.mapM f) (es.mapM g) := by
  induction es with
  | nil => exact .refl _
  | cons e es ih =>
    rw [List.mapM_cons, List.mapM_cons]
    exact (h e).bind fun v => ih.bind fun vs => .refl _

theorem evalSequence_below (es : List Expr) : Below (evalSequence f es) (evalSequence g es) := by
  rw [evalSequence_eq, evalSequence_eq]
  exact (mapM_below h es).bind fun vs => .refl _

theorem Call.evalArith_below (op : ArithOp) (c : Call) : Below (c.evalArith f op) (c.evalArith g op) := by
  unfold Call.evalArith
  cases c.args with
  | nil => exact .refl _
  | cons e es => exact (h e).bind fun v => (mapM_below h es).bind fun vs => .refl _

theorem Call.evalCompare_below (op : CompareOp) (c : Call) : Below (c.evalCompare f op) (c.evalCompare g op) := by
  unfold Call.evalCompare
  split
  · exact (h _).bind fun a => (h _).bind fun b => .refl _
  · exact .refl _

theorem Call.evalUser_below (c : Call) : Below (c.evalUser f) (c.evalUser g) := by
  refine .bind (.refl _) fun ρ => ?_
  split
  · exact .refl _
  · exact .refl _
  · split
    · refine (mapM_below h c.args).bind fun vs => .inFrame ?_
      exact .bind (.refl _) fun _ => evalSequence_below h _
    · exact .refl _

theorem Call.eval_below (c : Call) : Below (c.eval f) (c.eval g) := by
  unfold Call.eval
  split
  · exact c.evalArith_below h _
  · exact (c.evalCompare_below h _).bind fun b => .refl _
  · exact .refl _
  · exact c.evalUser_below h

theorem Expr.evalStep_below (e : Expr) : Below (e.evalStep f) (e.evalStep g) := by
  cases e with
  | int v s | name x s | ref e s => exact .refl _
  | call c s => exact c.eval_below h
  | define d s =>
    refine .bind (.refl _) fun _ => ?_
    split
    · exact evalSequence_below h _
    · exact .refl _
  | branch t y n s =>
    rw [evalStep_branch, evalStep_branch]
    split
    · refine (t.evalCompare_below h _).bind fun b => ?_
      split
      · exact h y
      · cases n with
        | none => exact .refl _
        | some e => exact h e
    · exact .refl _

end Steps

theorem Expr.eval_below {n k : Nat} (h : n ≤ k) (e : Expr) : Below (e.eval n) (e.eval k) := by
  induction n generalizing k e with
  | zero => exact nofun
  | succ n ih =>
    obtain ⟨k, rfl⟩ : ∃ j, k = j + 1 := ⟨k - 1, by omega⟩
    exact e.evalStep_below fun e => ih (by omega) e

/-- A program has at most one outcome, whatever the depth. -/
theorem interpret_mono {n k : Nat} (h : n ≤ k) {program : List Expr} {r : Except EvalError Int64}
    (hr : interpret n program = some r) : interpret k program = some r := by
  obtain ⟨p, hp, rfl⟩ := Option.map_eq_some_iff.mp hr
  have hk := evalSequence_below (Expr.eval_below h) program _ _ hp
  exact Option.map_eq_some_iff.mpr ⟨p, hk, rfl⟩

/-- A program has one outcome. -/
theorem interpret_unique {n k : Nat} {program : List Expr} {r r' : Except EvalError Int64}
    (hn : interpret n program = some r) (hk : interpret k program = some r') : r = r' := by
  rcases Nat.le_total n k with h | h
  · exact Option.some.inj ((interpret_mono h hn).symm.trans hk)
  · exact Option.some.inj (hn.symm.trans (interpret_mono h hk))

end SmallLisp
