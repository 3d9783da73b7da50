import SmallLisp.Proofs.Outcomes

/-! # Computations that do not write

A meaning only adds to the writes there were. So where a computation ends with the writes it began with,
none of its parts wrote, and the parts have values of their own.
-/
namespace SmallLisp
namespace Run
variable {α β : Type}

def Appends (x : Run α) : Prop := ∀ ws v ws', x ws = .ok (v, ws') → ws <+: ws'

/-- What a sequence has computed. -/
theorem bind_ok {x : Run α} {f : α → Run β} {ws ws' : List Write} {v : β} (h : (x >>= f) ws = .ok (v, ws')) :
    ∃ a ws₁, x ws = .ok (a, ws₁) ∧ f a ws₁ = .ok (v, ws') := by
  change Except.bind (x ws) (fun p => f p.1 p.2) = _ at h
  cases hx : x ws with
  | error e =>
    rw [hx] at h
    cases h
  | ok p =>
    rw [hx] at h
    exact ⟨p.1, p.2, rfl, h⟩

theorem bind_of_ok {x : Run α} {ws ws₁ : List Write} {a : α} (h : x ws = .ok (a, ws₁)) (f : α → Run β) :
    (x >>= f) ws = f a ws₁ := by
  change Except.bind (x ws) (fun p => f p.1 p.2) = _
  rw [h]
  rfl

namespace Appends
variable {x : Run α} {f : α → Run β}

theorem pure (v : α) : Appends (pure v : Run α) := by
  rintro ws _ _ ⟨⟩
  exact List.prefix_refl ws

theorem throw (e : Halt) : Appends (throw e : Run α) := nofun

theorem bind (hx : Appends x) (hf : ∀ a, Appends (f a)) : Appends (x >>= f) := by
  intro ws v ws' h
  obtain ⟨a, ws₁, ha, hv⟩ := bind_ok h
  exact (hx _ _ _ ha).trans (hf a _ _ _ hv)

/-- The parts of a sequence that does not write. -/
theorem bind_silent (hx : Appends x) (hf : ∀ a, Appends (f a)) {ws : List Write} {v : β}
    (h : (x >>= f) ws = .ok (v, ws)) : ∃ a, x ws = .ok (a, ws) ∧ f a ws = .ok (v, ws) := by
  obtain ⟨a, ws₁, ha, hv⟩ := bind_ok h
  have hle := hx _ _ _ ha
  have heq : ws₁ = ws := ((hf a _ _ _ hv).eq_of_length_le hle.length_le)
  subst heq
  exact ⟨a, ha, hv⟩

theorem arith (op : ArithOp) {x y : Run Int64} (hx : Appends x) (hy : Appends y) : Appends (arith op x y) := by
  refine hx.bind fun a => hy.bind fun b => ?_
  cases op.apply a b with
  | none => exact .throw _
  | some v => exact .pure v

theorem arithmetic (op : ArithOp) {xs : List (Run Int64)} (h : ∀ x ∈ xs, Appends x) :
    Appends (arithmetic op xs) := by
  cases xs with
  | nil => exact .throw _
  | cons x xs =>
    obtain ⟨hx, hxs⟩ := List.forall_mem_cons.mp h
    change Appends (xs.foldl (Run.arith op) x)
    induction xs generalizing x with
    | nil => exact hx
    | cons y ys ih =>
      obtain ⟨hy, hys⟩ := List.forall_mem_cons.mp hxs
      exact ih _ (List.forall_mem_cons.mpr ⟨hx.arith op hy, hys⟩) (hx.arith op hy) hys

theorem inOrder {xs : List (Run Int64)} (h : ∀ x ∈ xs, Appends x) : Appends (inOrder xs) := by
  induction xs with
  | nil => exact .pure _
  | cons x xs ih =>
    obtain ⟨hx, hxs⟩ := List.forall_mem_cons.mp h
    exact hx.bind fun v => (ih hxs).bind fun vs => .pure _

theorem compare (op : CompareOp) {xs : List (Run Int64)} (h : ∀ x ∈ xs, Appends x) : Appends (compare op xs) := by
  match xs with
  | [x, y] =>
    rw [compare_eq]
    refine (inOrder h).bind fun vs => ?_
    split
    · exact .pure _
    · exact .throw _
  | [] | [_] | _ :: _ :: _ :: _ => exact .throw _

theorem last {xs : List (Run Int64)} (h : ∀ x ∈ xs, Appends x) : Appends (last xs) := by
  cases xs with
  | nil => exact .throw _
  | cons x xs =>
    rw [last_eq (List.cons_ne_nil x xs)]
    exact (inOrder h).bind fun vs => .pure _

theorem conditional (head : String) {args : List (Run Int64)} {yes no : Run Int64} (h : ∀ x ∈ args, Appends x)
    (hyes : Appends yes) (hno : Appends no) : Appends (conditional head args yes no) := by
  unfold Run.conditional
  split
  · refine (compare _ h).bind fun b => ?_
    cases b
    · exact hno
    · exact hyes
  · exact .throw _

theorem write (answers : Nat → Int64) {fd value length : Run Int64} (hfd : Appends fd) (hvalue : Appends value)
    (hlength : Appends length) : Appends (write answers fd value length) := by
  refine hfd.bind fun fd => hvalue.bind fun value => hlength.bind fun length => ?_
  rintro ws _ _ ⟨⟩
  exact List.prefix_append _ _

theorem write_not_silent {answers : Nat → Int64} {fd value length : Run Int64} (hfd : Appends fd)
    (hvalue : Appends value) (hlength : Appends length) (ws : List Write) (v : Int64) :
    Run.write answers fd value length ws ≠ .ok (v, ws) := by
  intro h
  obtain ⟨a, ws₁, ha, h⟩ := bind_ok h
  obtain ⟨b, ws₂, hb, h⟩ := bind_ok h
  obtain ⟨n, ws₃, hn, h⟩ := bind_ok h
  have hle := ((hfd _ _ _ ha).trans (hvalue _ _ _ hb)).trans (hlength _ _ _ hn)
  have hws : ws₃ ++ [⟨a, b, n, answers ws₃.length⟩] = ws := by
    cases h
    rfl
  have hlen := congrArg List.length hws
  rw [List.length_append, List.length_singleton] at hlen
  have := hle.length_le
  omega

end Appends
end Run

section Meanings
variable {answers : Nat → Int64} {call : String → List Int64 → Run Int64} {vars : String → Option Int64}

theorem Call.meaning_appends (hcall : ∀ name args, (call name args).Appends) {c : Call}
    (h : ∀ e ∈ c.args, (e.meaning answers call vars).Appends ∧
      ∀ target s, e = .ref target s → (target.meaning answers call vars).Appends) :
    (c.meaning answers call vars).Appends := by
  obtain ⟨head, args, span⟩ := c
  have hargs : ∀ x ∈ args.map (Expr.meaning answers call vars), x.Appends := by simpa using fun e he => (h e he).1
  unfold Call.meaning
  rw [meaningEach_eq_map]
  split
  · exact .arithmetic _ hargs
  · refine (Run.Appends.compare _ hargs).bind fun b => ?_
    cases b <;> exact .pure _
  · split
    next _ fd value sr length =>
      have hvalue := h (.ref value sr) (by simp)
      exact .write answers (h fd (by simp)).1 (hvalue.2 _ _ rfl) (h length (by simp)).1
    · exact .throw _
  · exact (Run.Appends.inOrder hargs).bind fun vs => hcall head vs

/-- A meaning only adds to the writes if calls do. -/
theorem Expr.meaning_appends (hcall : ∀ name args, (call name args).Appends) (e : Expr) :
    (e.meaning answers call vars).Appends := by
  suffices h : (e.meaning answers call vars).Appends ∧
      ∀ target s, e = .ref target s → (target.meaning answers call vars).Appends from h.1
  induction e using Expr.induction with
  | int v s => exact ⟨.pure v, nofun⟩
  | name x s =>
    refine ⟨?_, nofun⟩
    rw [Expr.meaning]
    split
    · exact .pure _
    · exact .throw _
  | ref e s ih =>
    refine ⟨.throw _, ?_⟩
    rintro _ _ ⟨⟩
    exact ih.1
  | define d s ih => exact ⟨.pure 0, nofun⟩
  | call c s ih => exact ⟨Call.meaning_appends hcall ih, nofun⟩
  | branch t y n s iht ihy ihn =>
    refine ⟨?_, nofun⟩
    rw [Expr.meaning_branch]
    refine .conditional _ (by simpa using fun e he => (iht e he).1) ihy.1 ?_
    cases n with
    | none => exact .pure 0
    | some e => exact (ihn e rfl).1

/-- Calls only add to the writes. -/
theorem callMeaning_appends (program : List Expr) (depth : Nat) (name : String) (args : List Int64) :
    (callMeaning program answers depth name args).Appends := by
  induction depth generalizing name args with
  | zero => exact .throw _
  | succ depth ih =>
    unfold callMeaning
    split
    · refine .last ?_
      simpa using fun e _ => e.meaning_appends ih
    · exact .throw _

end Meanings

/-! ## Values of the parts -/

namespace Run

theorem length_of_inOrder {xs : List (Run Int64)} {ws ws' : List Write} {vs : List Int64}
    (h : inOrder xs ws = .ok (vs, ws')) : vs.length = xs.length := by
  induction xs generalizing ws vs with
  | nil =>
    cases h
    rfl
  | cons x xs ih =>
    obtain ⟨a, ws₁, -, h⟩ := bind_ok h
    obtain ⟨as, ws₂, has, h⟩ := bind_ok h
    cases h
    exact congrArg (· + 1) (ih has)

theorem foldl_arith_ok {op : ArithOp} {xs : List (Run Int64)} {y : Run Int64} {ws ws' : List Write} {v : Int64}
    (h : xs.foldl (arith op) y ws = .ok (v, ws')) : ∃ a ws₁ vs, y ws = .ok (a, ws₁) ∧
      inOrder xs ws₁ = .ok (vs, ws') ∧ op.fold a vs = .ok v := by
  induction xs generalizing y ws with
  | nil => exact ⟨v, ws', [], h, rfl, rfl⟩
  | cons x xs ih =>
    obtain ⟨w, ws₂, vs, hw, hvs, hfold⟩ := ih h
    obtain ⟨a, ws₁, ha, hw⟩ := bind_ok hw
    obtain ⟨b, ws₃, hb, hw⟩ := bind_ok hw
    cases hv : op.apply a b with
    | none =>
      simp only [hv] at hw
      cases hw
    | some w' =>
      simp only [hv] at hw
      cases hw
      refine ⟨a, ws₁, b :: vs, ha, ?_, ?_⟩
      · rw [inOrder, bind_of_ok hb, bind_of_ok hvs]
        rfl
      · simp only [ArithOp.fold, hv, hfold]
        rfl

/-- The operands of an operation that has a value. -/
theorem arithmetic_ok {op : ArithOp} {xs : List (Run Int64)} {ws ws' : List Write} {v : Int64}
    (h : arithmetic op xs ws = .ok (v, ws')) :
    ∃ a vs, inOrder xs ws = .ok (a :: vs, ws') ∧ op.fold a vs = .ok v := by
  cases xs with
  | nil => cases h
  | cons x xs =>
    obtain ⟨a, ws₁, vs, ha, hvs, hfold⟩ := foldl_arith_ok h
    refine ⟨a, vs, ?_, hfold⟩
    rw [inOrder, bind_of_ok ha, bind_of_ok hvs]
    rfl

end Run
end SmallLisp
