import SmallLisp.Proofs.BuilderGrowth
import SmallLisp.Proofs.CompiledModule
import SmallLisp.Proofs.Linkage

/-! # What compiling an expression leaves

An expression may be compiled in any function under construction whose current block is open, whatever else there
is in the function and in the module. Each combinator lets the builder grow and defines exactly one of the registers
that are pending. The functions that definitions add to the module on the way have builders of their own, which grow
in the same manner.
-/
namespace SmallLisp
open IR (Reg BlockId Operand Instr)

abbrev Ensures {σ α : Type} (step : EStateM CompileError σ α) (s : σ) (post : α → σ → Prop) : Prop :=
  Ends (fun _ => True) step s post

theorem Ensures.of_eq_ok {σ α : Type} {step : EStateM CompileError σ α} {s t : σ} {a : α}
    {post : α → σ → Prop} (h : Ensures step s post) (hs : step s = .ok a t) : post a t := by
  unfold Ensures Ends at h
  rwa [hs] at h

def Context.Gains (cx cx' : Context) : Prop :=
  ∀ f ∈ cx'.module.functions, f ∈ cx.module.functions ∨ f.Gapless

theorem Context.Gains.of_module_eq {cx cx' : Context} (h : cx'.module = cx.module) : cx.Gains cx' :=
  fun _ hf => .inl (h ▸ hf)

theorem Context.Gains.trans {cx cx₁ cx₂ : Context} (h : cx.Gains cx₁) (h₁ : cx₁.Gains cx₂) :
    cx.Gains cx₂ :=
  fun f hf => (h₁ f hf).elim (h f) .inr

structure LowerState.Reaches (s₀ s : LowerState) (waiting : List BlockId) (given pending : List Reg) : Prop where
  builder : s₀.builder.Grows s.builder waiting given pending
  context : s₀.context.Gains s.context

/-! ## Steps -/

section Steps
variable {s₀ s : LowerState} {waiting : List BlockId} {given pending : List Reg}

theorem LowerState.Reaches.perm {pending' : List Reg} (h : s₀.Reaches s waiting given pending)
    (hp : pending.Perm pending') : s₀.Reaches s waiting given pending' :=
  ⟨h.builder.perm hp, h.context⟩

theorem freshReg_reaches (h : s₀.Reaches s waiting given pending) :
    Ensures LowerM.freshReg s fun r t => s₀.Reaches t waiting given (r :: pending) :=
  ⟨h.builder.freshReg, h.context⟩

theorem freshLabel_reaches (h : s₀.Reaches s waiting given pending) :
    Ensures LowerM.freshLabel s fun _ t => s₀.Reaches t waiting given pending :=
  ⟨h.builder.freshLabel, h.context⟩

theorem newBlock_reaches (h : s₀.Reaches s waiting given pending) (label : String) :
    Ensures (LowerM.newBlock label) s fun id t => s₀.Reaches t (waiting ++ [id]) given pending :=
  ⟨h.builder.newBlock label, h.context⟩

theorem currentBlock_reaches (h : s₀.Reaches s waiting given pending) :
    Ensures LowerM.currentBlock s fun _ t => s₀.Reaches t waiting given pending := h

theorem emit_reaches {pending' : List Reg} {i : Instr} (h : s₀.Reaches s waiting given pending)
    (hp : pending.Perm (i.dst?.toList ++ pending')) : Ensures (LowerM.emit i) s fun _ t =>
      s₀.Reaches t waiting given pending' ∧ ∀ r, i.dst? = some r → t.builder.EndsWith r := by
  unfold Ensures Ends
  rw [LowerM.emit, LowerM.build_run]
  cases he : s.builder.emit i with
  | error misuse => exact trivial
  | ok b => exact ⟨⟨h.builder.emit hp he, h.context⟩, fun _ => IR.Builder.endsWith_of_emit h.builder.isOpen he⟩

/-- An instruction that defines a pending register. -/
theorem result_reaches {r : Reg} {i : Instr} (h : s₀.Reaches s waiting given (r :: pending)) (hi : i.dst? = some r) :
    Ensures (LowerM.emit i) s fun _ t => s₀.Reaches t waiting given pending ∧ t.builder.EndsWith r :=
  (emit_reaches h (by rw [hi]; exact .refl _)).mono fun _ _ ht => ⟨ht.1, ht.2 r hi⟩

theorem store_reaches (h : s₀.Reaches s waiting given pending) (value : Operand) (ptr : Reg) :
    Ensures (LowerM.emit (.store value ptr)) s fun _ t => s₀.Reaches t waiting given pending :=
  (emit_reaches h (.refl _)).mono fun _ _ ht => ht.1

/-- Ending the open block and going on in one that waits, with what follows. -/
theorem moveOn_bind {α : Type} {before after : List BlockId} {id : BlockId} {f : Unit → LowerM α}
    {post : α → LowerState → Prop} (h : s₀.Reaches s (before ++ id :: after) given pending) (t : IR.Terminator)
    (hf : ∀ u, s₀.Reaches u (before ++ after) given pending → Ensures (f ()) u post) :
    Ensures (LowerM.terminate t >>= fun _ => LowerM.position id >>= f) s post := by
  unfold Ensures Ends at hf ⊢
  simp only [LowerM.terminate, LowerM.position, bind, EStateM.bind, LowerM.build_run]
  cases ht : s.builder.terminate t with
  | error misuse => exact trivial
  | ok b =>
    dsimp only
    cases hp : b.position id with
    | error misuse => exact trivial
    | ok b' => exact hf _ ⟨h.builder.moveOn ht hp, h.context⟩

theorem define_reaches (h : s₀.Reaches s waiting given pending) (name : String) (storage : Storage) :
    Ensures (LowerM.define name storage) s fun _ t => s₀.Reaches t waiting given pending :=
  ⟨h.builder, h.context⟩

theorem inContext_reaches {step : ContextM Unit} (h : s₀.Reaches s waiting given pending)
    (hstep : Ensures step s.context fun _ cx => s.context.Gains cx) :
    Ensures (LowerM.inContext step) s fun _ t => s₀.Reaches t waiting given pending :=
  Ends.inContext (hstep.mono fun _ _ hcx => ⟨h.builder, h.context.trans hcx⟩)

theorem declare_ensures (d : Definition) (cx : Context) :
    Ensures (declare d) cx fun _ cx' => cx'.module = cx.module := by
  unfold Ensures Ends
  rw [declare_run, Context.register]
  cases cx.signature? d.signature.name with
  | none => rfl
  | some p => exact trivial

end Steps

/-! ## Combinators -/

/-- A combinator that defines its target wherever the target is pending. -/
def Fills (l : Lowering) : Prop :=
  ∀ target {s₀ s waiting given pending}, LowerState.Reaches s₀ s waiting given (target :: pending) →
    Ensures (l target) s fun _ t => s₀.Reaches t waiting given pending

def Leaves (l : Lowering) : Prop :=
  ∀ target {s₀ s waiting given pending}, LowerState.Reaches s₀ s waiting given (target :: pending) →
    Ensures (l target) s fun _ t => s₀.Reaches t waiting given pending ∧ t.builder.EndsWith target

theorem Leaves.fills {l : Lowering} (h : Leaves l) : Fills l :=
  fun target _ _ _ _ _ hs => (h target hs).mono fun _ _ ht => ht.1

theorem throw_leaves (e : CompileError) : Leaves fun _ => throw e := fun _ _ _ _ _ _ _ => trivial

theorem constant_leaves (v : Int64) : Leaves (Lower.constant v) := fun _ _ _ _ _ _ hs => result_reaches hs rfl

theorem load_leaves (x : String) (span : Span) : Leaves (Lower.load x span) := by
  intro target s₀ s waiting given pending hs
  refine .get_bind ?_
  split
  · exact result_reaches hs rfl
  · exact trivial
  · exact trivial

theorem spill_fills {value : Lowering} (h : Fills value) : Fills (Lower.spill value) := by
  intro target s₀ s waiting given pending hs
  refine .bind (freshReg_reaches hs) fun r s₁ hs₁ => ?_
  refine .bind (h r hs₁) fun _ s₂ hs₂ => ?_
  refine .bind (result_reaches hs₂ rfl) fun _ s₃ hs₃ => ?_
  exact store_reaches hs₃.1 _ _

theorem tree_leaves (t : Split Lowering) (h : ∀ l ∈ t.leaves, Leaves l) : Leaves (Lower.tree t) := by
  induction t with
  | leaf l => exact h l (by simp [Split.leaves])
  | node op left right ihl ihr =>
    simp only [Split.leaves, List.mem_append] at h
    intro target s₀ s waiting given pending hs
    refine .bind (freshReg_reaches hs) fun lhs s₁ hs₁ => ?_
    refine .bind (freshReg_reaches hs₁) fun rhs s₂ hs₂ => ?_
    have hleft := (ihl fun l hl => h l (.inl hl)).fills lhs (hs₂.perm (.swap _ _ _))
    refine .bind hleft fun _ s₃ hs₃ => ?_
    refine .bind ((ihr fun l hl => h l (.inr hl)).fills rhs hs₃) fun _ s₄ hs₄ => ?_
    exact result_reaches hs₄ rfl

theorem arithmetic_leaves (op : ArithOp) (head : String) (span : Span) {args : List Lowering}
    (h : ∀ l ∈ args, Leaves l) : Leaves (Lower.arithmetic op head span args) := by
  rw [Lower.arithmetic]
  cases ht : Split.ofList? op args with
  | none => exact throw_leaves _
  | some t => exact tree_leaves t (by rwa [Split.leaves_of_ofList? ht])

theorem comparison_leaves (op : CompareOp) (head : String) (span : Span) {args : List Lowering}
    (h : ∀ l ∈ args, Fills l) : Leaves (Lower.comparison op head span args) := by
  by_cases hlen : args.length = 2
  · obtain ⟨left, right, rfl⟩ := List.length_eq_two.mp hlen
    intro target s₀ s waiting given pending hs
    refine .bind (freshReg_reaches hs) fun lhs s₁ hs₁ => ?_
    refine .bind (freshReg_reaches hs₁) fun rhs s₂ hs₂ => ?_
    refine .bind (h left (by simp) lhs (hs₂.perm (.swap _ _ _))) fun _ s₃ hs₃ => ?_
    refine .bind (h right (by simp) rhs hs₃) fun _ s₄ hs₄ => ?_
    exact result_reaches hs₄ rfl
  · rw [comparison_eq_throw hlen]
    exact throw_leaves _

theorem comparisonValue_leaves (op : CompareOp) (head : String) (span : Span) {args : List Lowering}
    (h : ∀ l ∈ args, Fills l) : Leaves (Lower.comparisonValue op head span args) := by
  intro target s₀ s waiting given pending hs
  refine .bind (freshReg_reaches hs) fun flag s₁ hs₁ => ?_
  refine .bind ((comparison_leaves op head span h).fills flag hs₁) fun _ s₂ hs₂ => ?_
  exact result_reaches hs₂ rfl

theorem operands_reach {args : List Lowering} (h : ∀ l ∈ args, Fills l) {s₀ s : LowerState}
    {waiting : List BlockId} {given pending : List Reg} (hs : s₀.Reaches s waiting given pending) :
    Ensures (Lower.operands args) s fun _ t => s₀.Reaches t waiting given pending := by
  induction args generalizing s with
  | nil => exact hs
  | cons arg args ih =>
    refine .bind (freshReg_reaches hs) fun r s₁ hs₁ => ?_
    refine .bind (h arg List.mem_cons_self r hs₁) fun _ s₂ hs₂ => ?_
    refine .bind (ih (fun l hl => h l (List.mem_cons_of_mem _ hl)) hs₂) fun _ s₃ hs₃ => ?_
    exact hs₃

theorem userCall_leaves (head : String) (span : Span) {args : List Lowering} (h : ∀ l ∈ args, Fills l) :
    Leaves (Lower.userCall head span args) := by
  intro target s₀ s waiting given pending hs
  refine .get_bind ?_
  split
  · exact trivial
  · exact trivial
  · split
    · exact trivial
    · split
      · refine .bind (operands_reach h hs) fun _ s₁ hs₁ => ?_
        exact result_reaches hs₁ rfl
      · exact trivial

theorem choice_leaves {test yes : Lowering} {no : Option Lowering} (htest : Fills test) (hyes : Fills yes)
    (hno : ∀ l ∈ no, Fills l) : Leaves (Lower.choice test yes no) := by
  intro target s₀ s waiting given pending hs
  cases no with
  | none =>
    rw [choice_none_eq]
    refine .bind (freshReg_reaches hs) fun flag s₁ hs₁ => ?_
    refine .bind (htest flag hs₁) fun _ s₂ hs₂ => ?_
    refine .bind (freshLabel_reaches hs₂) fun n s₃ hs₃ => ?_
    refine .bind (newBlock_reaches hs₃ _) fun yesBlock s₄ hs₄ => ?_
    refine .bind (newBlock_reaches hs₄ _) fun endBlock s₅ hs₅ => ?_
    refine .bind (currentBlock_reaches hs₅) fun testExit s₆ hs₆ => ?_
    rw [List.append_assoc] at hs₆
    refine moveOn_bind hs₆ _ fun s₇ hs₇ => ?_
    refine .bind (freshReg_reaches hs₇) fun yesValue s₈ hs₈ => ?_
    refine .bind (hyes yesValue hs₈) fun _ s₉ hs₉ => ?_
    refine .bind (currentBlock_reaches hs₉) fun yesExit s₁₀ hs₁₀ => ?_
    refine moveOn_bind hs₁₀ _ fun s₁₁ hs₁₁ => ?_
    rw [List.append_nil] at hs₁₁
    exact result_reaches hs₁₁ rfl
  | some no =>
    rw [choice_some_eq]
    refine .bind (freshReg_reaches hs) fun flag s₁ hs₁ => ?_
    refine .bind (htest flag hs₁) fun _ s₂ hs₂ => ?_
    refine .bind (freshLabel_reaches hs₂) fun n s₃ hs₃ => ?_
    refine .bind (newBlock_reaches hs₃ _) fun yesBlock s₄ hs₄ => ?_
    refine .bind (newBlock_reaches hs₄ _) fun noBlock s₅ hs₅ => ?_
    refine .bind (newBlock_reaches hs₅ _) fun endBlock s₆ hs₆ => ?_
    refine .bind (currentBlock_reaches hs₆) fun _ s₇ hs₇ => ?_
    rw [List.append_assoc, List.append_assoc] at hs₇
    refine moveOn_bind hs₇ _ fun s₈ hs₈ => ?_
    refine .bind (freshReg_reaches hs₈) fun yesValue s₉ hs₉ => ?_
    refine .bind (hyes yesValue hs₉) fun _ s₁₀ hs₁₀ => ?_
    refine .bind (currentBlock_reaches hs₁₀) fun yesExit s₁₁ hs₁₁ => ?_
    refine moveOn_bind hs₁₁ _ fun s₁₂ hs₁₂ => ?_
    refine .bind (freshReg_reaches hs₁₂) fun noValue s₁₃ hs₁₃ => ?_
    refine .bind (hno no rfl noValue hs₁₃) fun _ s₁₄ hs₁₄ => ?_
    refine .bind (currentBlock_reaches hs₁₄) fun noExit s₁₅ hs₁₅ => ?_
    refine moveOn_bind hs₁₅ _ fun s₁₆ hs₁₆ => ?_
    rw [List.append_nil] at hs₁₆
    exact result_reaches hs₁₆ rfl

theorem conditional_leaves (head : String) (span : Span) {args : List Lowering} {yes : Lowering}
    {no : Option Lowering} (hargs : ∀ l ∈ args, Fills l) (hyes : Fills yes) (hno : ∀ l ∈ no, Fills l) :
    Leaves (Lower.conditional head span args yes no) := by
  rw [Lower.conditional]
  split
  · exact choice_leaves (comparison_leaves _ head span hargs).fills hyes hno
  · exact throw_leaves _

theorem write_leaves {fd buffer length : Lowering} (h₁ : Fills fd) (h₂ : Fills buffer) (h₃ : Fills length) :
    Leaves (Lower.write fd buffer length) := by
  intro target s₀ s waiting given pending hs
  refine .bind (freshReg_reaches hs) fun fdReg s₁ hs₁ => ?_
  refine .bind (freshReg_reaches hs₁) fun bufferReg s₂ hs₂ => ?_
  refine .bind (freshReg_reaches hs₂) fun lengthReg s₃ hs₃ => ?_
  have horder : [lengthReg, bufferReg, fdReg].Perm [fdReg, bufferReg, lengthReg] :=
    List.reverse_perm [fdReg, bufferReg, lengthReg]
  refine .bind (h₁ fdReg (hs₃.perm (horder.append_right _))) fun _ s₄ hs₄ => ?_
  refine .bind (h₂ bufferReg hs₄) fun _ s₅ hs₅ => ?_
  refine .bind (h₃ lengthReg hs₅) fun _ s₆ hs₆ => ?_
  refine .bind (freshReg_reaches hs₆) fun address s₇ hs₇ => ?_
  refine .bind (result_reaches hs₇ rfl) fun _ s₈ hs₈ => ?_
  refine .get_bind ?_
  refine .bind (freshReg_reaches hs₈.1) fun status s₉ hs₉ => ?_
  refine .bind (result_reaches hs₉ rfl) fun _ s₁₀ hs₁₀ => ?_
  refine .bind (freshReg_reaches hs₁₀.1) fun complete s₁₁ hs₁₁ => ?_
  refine .bind (result_reaches hs₁₁ rfl) fun _ s₁₂ hs₁₂ => ?_
  refine .bind (freshLabel_reaches hs₁₂.1) fun n s₁₃ hs₁₃ => ?_
  refine .bind (newBlock_reaches hs₁₃ _) fun okBlock s₁₄ hs₁₄ => ?_
  refine .bind (newBlock_reaches hs₁₄ _) fun failBlock s₁₅ hs₁₅ => ?_
  refine .bind (newBlock_reaches hs₁₅ _) fun endBlock s₁₆ hs₁₆ => ?_
  rw [List.append_assoc, List.append_assoc] at hs₁₆
  refine moveOn_bind hs₁₆ _ fun s₁₇ hs₁₇ => ?_
  refine moveOn_bind hs₁₇ _ fun s₁₈ hs₁₈ => ?_
  refine moveOn_bind hs₁₈ _ fun s₁₉ hs₁₉ => ?_
  rw [List.append_nil] at hs₁₉
  exact result_reaches hs₁₉ rfl

/-! ## Functions -/

theorem parameters_reach (xs : List String) {s₀ s : LowerState} {waiting : List BlockId} {given pending : List Reg}
    (hs : s₀.Reaches s waiting given pending) :
    Ensures (xs.forM Lower.parameter) s fun _ t => s₀.Reaches t waiting given pending := by
  induction xs generalizing s with
  | nil => exact hs
  | cons x xs ih =>
    change Ensures (Lower.parameter x >>= fun _ => xs.forM Lower.parameter) s _
    simp only [Lower.parameter, bind_assoc]
    refine .bind (freshReg_reaches hs) fun slot s₁ hs₁ => ?_
    refine .bind (result_reaches hs₁ rfl) fun _ s₂ hs₂ => ?_
    refine .bind (store_reaches hs₂.1 _ _) fun _ s₃ hs₃ => ?_
    refine .bind (define_reaches hs₃ x _) fun _ s₄ hs₄ => ?_
    exact ih hs₄

theorem lowerBody_fills (function : String) {es : List Expr} {root : Scope Storage}
    (h : ∀ e ∈ es, Fills (e.lower root)) : Fills (lowerBody function es root) := by
  induction es with
  | nil =>
    intro target s₀ s waiting given pending hs
    rw [lowerBody]
    exact trivial
  | cons e es ih =>
    cases es with
    | nil =>
      rw [lowerBody]
      exact h e List.mem_cons_self
    | cons e' es =>
      intro target s₀ s waiting given pending hs
      rw [lowerBody]
      refine .bind (freshReg_reaches hs) fun r s₁ hs₁ => ?_
      refine .bind (h e List.mem_cons_self r hs₁) fun _ s₂ hs₂ => ?_
      exact ih (fun x hx => h x (List.mem_cons_of_mem _ hx)) target hs₂

theorem definition_ensures {d : Definition} {root : Scope Storage} (h : ∀ e ∈ d.body, Fills (e.lower root))
    (cx : Context) : Ensures (d.lower root) cx fun _ cx' => cx.Gains cx' := by
  obtain ⟨name, params, body, span⟩ := d
  rw [Definition.lower]
  have hstart : LowerState.Reaches ⟨cx, .new name params, root.push⟩
      ⟨cx, .new name params, root.push⟩ [] [] [] :=
    ⟨.refl ⟨_, rfl, rfl⟩ [], .of_module_eq rfl⟩
  refine Ends.inFunction ?_
  refine .bind (parameters_reach params hstart) fun _ s₁ hs₁ => ?_
  refine .bind (freshReg_reaches hs₁) fun result s₂ hs₂ => ?_
  refine .bind (lowerBody_fills name h result hs₂) fun _ s₃ hs₃ => ?_
  unfold Ends
  rw [LowerM.terminate, LowerM.build_run]
  cases ht : s₃.builder.terminate (.ret (.reg result)) with
  | error misuse => exact trivial
  | ok b =>
    dsimp only
    cases hf : b.finish with
    | error cause => exact trivial
    | ok f =>
      intro g hg
      rcases List.mem_append.mp hg with hg | hg
      · exact hs₃.context g hg
      · obtain rfl := List.mem_singleton.mp hg
        exact .inr (hs₃.builder.gapless ht hf)

/-! ## Expressions -/

theorem define_leaves {d : Definition} (span : Span) (h : ∀ e ∈ d.body, ∀ root, Leaves (e.lower root))
    (root : Scope Storage) : Leaves ((Expr.define d span).lower root) := by
  rw [Expr.lower_define]
  intro target s₀ s waiting given pending hs
  have hdeclare := (declare_ensures d s.context).mono fun _ _ => Context.Gains.of_module_eq
  refine .bind (inContext_reaches hs hdeclare) fun _ s₁ hs₁ => ?_
  refine .bind (define_reaches hs₁ d.name _) fun _ s₂ hs₂ => ?_
  have hbody : ∀ e ∈ d.body, Fills (e.lower (root.push.define d.name .function)) := fun e he => (h e he _).fills
  refine .bind (inContext_reaches hs₂ (definition_ensures hbody s₂.context)) fun _ s₃ hs₃ => ?_
  exact constant_leaves 0 target hs₃

theorem lowerEach_leaves {es : List Expr} (h : ∀ e ∈ es, ∀ root, Leaves (e.lower root)) (root : Scope Storage) :
    ∀ l ∈ lowerEach es root, Leaves l := by
  rw [lowerEach_eq_map]
  intro l hl
  obtain ⟨e, he, rfl⟩ := List.mem_map.mp hl
  exact h e he root

theorem branch_leaves {t : Call} {yes : Expr} {no : Option Expr} (span : Span)
    (ht : ∀ e ∈ t.args, ∀ root, Leaves (e.lower root)) (hyes : ∀ root, Leaves (yes.lower root))
    (hno : ∀ e ∈ no, ∀ root, Leaves (e.lower root)) (root : Scope Storage) :
    Leaves ((Expr.branch t yes no span).lower root) := by
  rw [Expr.lower_branch]
  refine conditional_leaves t.head t.span (fun l hl => (lowerEach_leaves ht root l hl).fills) (hyes root).fills ?_
  intro l hl
  obtain ⟨e, he, rfl⟩ := Option.map_eq_some_iff.mp hl
  exact (hno e he root).fills

theorem call_leaves {c : Call} (span : Span) (h : ∀ e ∈ c.args, ∀ root, Leaves (e.lower root))
    (href : ∀ e s, .ref e s ∈ c.args → ∀ root, Leaves (e.lower root)) (root : Scope Storage) :
    Leaves ((Expr.call c span).lower root) := by
  have heq : (Expr.call c span).lower root = c.lower root := rfl
  have hargs := lowerEach_leaves h root
  rw [heq, Call.lower_eq]
  split
  case h_1 op hop => exact arithmetic_leaves op c.head c.span hargs
  case h_2 op hop => exact comparisonValue_leaves op c.head c.span fun l hl => (hargs l hl).fills
  case h_3 hop =>
    split
    case h_1 fd value sr length hxyz =>
      have hvalue := href value sr (by simp [hxyz]) root
      exact write_leaves (h fd (by simp [hxyz]) root).fills (spill_fills hvalue.fills)
        (h length (by simp [hxyz]) root).fills
    all_goals exact throw_leaves _
  case h_4 hop => exact userCall_leaves c.head c.span fun l hl => (hargs l hl).fills

/-- Every expression leaves its value in its target. -/
theorem Expr.leaves (e : Expr) : ∀ root, Leaves (e.lower root) := by
  -- A reference is an operand of a write only, which compiles what it refers to.
  suffices (∀ root, Leaves (e.lower root)) ∧ ∀ v s, e = .ref v s → ∀ root, Leaves (v.lower root) from this.1
  induction e using Expr.induction with
  | int v s => exact ⟨fun _ => constant_leaves v, nofun⟩
  | name x s => exact ⟨fun _ => load_leaves x s, nofun⟩
  | ref e s ih =>
    refine ⟨fun _ => throw_leaves _, fun v s' h => ?_⟩
    cases h
    exact ih.1
  | call c s ih => exact ⟨call_leaves s (fun e he => (ih e he).1) fun e s he => (ih _ he).2 e s rfl, nofun⟩
  | define d s ih => exact ⟨define_leaves s fun e he => (ih e he).1, nofun⟩
  | branch t y n s iht ihy ihn =>
    exact ⟨branch_leaves s (fun e he => (iht e he).1) ihy.1 fun e he => (ihn e he).1, nofun⟩

theorem Expr.receives {e : Expr} {root : Scope Storage} {target : Reg} {s t : LowerState} (hopen : s.builder.IsOpen)
    (htarget : target.index < s.builder.nextReg) (h : e.lower root target s = .ok () t) :
    ∃ a, s.builder.Receives t.builder target a := by
  have hstart : s.Reaches s [] [target] [target] := ⟨.refl hopen [target], .of_module_eq rfl⟩
  obtain ⟨hreach, hends⟩ := Ensures.of_eq_ok (e.leaves root target hstart) h
  exact hreach.builder.receives htarget hends

/-! ## Programs -/

theorem declareFrom_ensures (program : List Expr) (root : Scope Storage) (cx : Context) :
    Ensures (declareFrom root program) cx fun _ cx' => cx'.module = cx.module := by
  induction program generalizing root cx with
  | nil => exact .pure rfl
  | cons e es ih =>
    rw [declareFrom.eq_def]
    cases e with
    | define d s =>
      refine .bind (declare_ensures d cx) fun _ cx₁ h₁ => ?_
      refine .bind (ih _ cx₁) fun declared cx₂ h₂ => ?_
      exact .pure (h₂.trans h₁)
    | int _ _ | name _ _ | ref _ _ | call _ _ | branch _ _ _ _ => exact trivial

theorem definitions_ensure (ds : List Definition) (root : Scope Storage) (cx : Context) :
    Ensures (ds.forM (·.lower root)) cx fun _ cx' => cx.Gains cx' := by
  induction ds generalizing cx with
  | nil => exact .pure (.of_module_eq rfl)
  | cons d ds ih =>
    refine .bind (definition_ensures (fun e _ => (e.leaves root).fills) cx) fun _ cx₁ h₁ => ?_
    exact (ih cx₁).mono fun _ cx₂ h₂ => h₁.trans h₂

theorem gapless_of_compile {abi : IR.Abi} {name : String} {program : List Expr} {m : IR.Module}
    (h : compile abi name program = .ok m) : ∀ f ∈ m.functions, f.Gapless := by
  have hsteps : Ensures (compileSteps program) (.new name abi) fun _ cx =>
      ∀ f ∈ cx.module.functions, f.Gapless := by
    refine .bind (declareFrom_ensures program .empty _) ?_
    rintro ⟨root, ds⟩ cx₁ h₁
    refine (definitions_ensure ds root cx₁).mono fun _ cx₂ h₂ f hf => ?_
    -- the module that the compilation starts with is empty
    exact ((Context.Gains.of_module_eq h₁).trans h₂ f hf).resolve_left (by simp [Context.new])
  rw [compile_eq] at h
  cases hr : compileSteps program (.new name abi) with
  | ok _ cx =>
    rw [hr] at h
    cases h
    exact hsteps.of_eq_ok hr
  | error e cx =>
    rw [hr] at h
    cases h

/-- Compiling an expression adds the code of its value to a builder whose current block is open, and nothing else.
So the registers that a compiled function defines are numbered without a gap. -/
theorem Expr.lower_receives :
    (∀ (e : Expr) (root : Scope Storage) (target : Reg) (s t : LowerState), s.builder.IsOpen →
      target.index < s.builder.nextReg → e.lower root target s = .ok () t →
      ∃ a, s.builder.Receives t.builder target a) ∧
    ∀ (abi : IR.Abi) (name : String) (program : List Expr) (m : IR.Module), compile abi name program = .ok m →
      ∀ f ∈ m.functions, f.Gapless :=
  ⟨fun _ _ _ _ _ => Expr.receives, fun _ _ _ _ => gapless_of_compile⟩

/-- A state in which the last of three blocks is current and the one before it has no place yet. -/
def betweenBlocks : LowerState where
  context := .new "m" .linuxX64
  scope := .empty
  builder :=
    { name := "f", params := [], layout := [⟨0⟩, ⟨2⟩], current := ⟨2⟩, nextReg := 3, nextLabel := 2,
      blocks := [⟨"entry", [.binary ⟨1⟩ .add (.const 4) (.const 0)], some (.br ⟨2⟩), true⟩,
        { label := "waiting" }, { label := "body", placed := true }] }

/-- The expression `(if (< 1 2) (def g () 7) 8)`. -/
def definingChoice : Expr :=
  .branch ⟨"<", [.int 1 default, .int 2 default], default⟩
    (.define ⟨"g", [], [.int 7 default], default⟩ default) (some (.int 8 default)) default

theorem Expr.lower_receives_definingChoice :
    (∃ t a, definingChoice.lower .empty ⟨2⟩ betweenBlocks = .ok () t ∧
      betweenBlocks.builder.Receives t.builder ⟨2⟩ a ∧ t.builder.nextReg = 8) ∧
    ∃ m, compile .linuxX64 "m" nestedProgram = .ok m ∧ ∀ f ∈ m.functions, f.Gapless := by
  constructor
  · have hopen : betweenBlocks.builder.IsOpen := ⟨_, rfl, rfl⟩
    have hend : (match definingChoice.lower .empty ⟨2⟩ betweenBlocks with
        | .ok _ t => some t.builder.nextReg
        | .error _ _ => none) = some 8 := by decide +kernel
    cases ht : definingChoice.lower .empty ⟨2⟩ betweenBlocks with
    | error e t =>
      rw [ht] at hend
      cases hend
    | ok u t =>
      rw [ht] at hend
      obtain ⟨a, ha⟩ := Expr.lower_receives.1 definingChoice .empty ⟨2⟩ betweenBlocks t hopen (by decide) ht
      exact ⟨t, a, rfl, ha, Option.some.inj hend⟩
  · have hok : (compile .linuxX64 "m" nestedProgram).toOption.map (fun _ => ()) = some () := by decide +kernel
    obtain ⟨m, hm, -⟩ := exists_of_map_toOption hok
    exact ⟨m, hm, Expr.lower_receives.2 _ _ _ m hm⟩

end SmallLisp
