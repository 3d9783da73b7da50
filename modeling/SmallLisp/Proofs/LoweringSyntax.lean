import SmallLisp.Proofs.LoweringEmits

/-! # Compiling the syntax

The walk over the syntax emits the code of every expression, and turns every definition into a function
of its own. The equations of the walk are stated once for each form; the induction over expressions then
chooses among the combinators.
-/
namespace SmallLisp
open IR (Reg BlockId Operand Instr Item Code Layout)

/-! ## Functions -/

/-- Only the definitions given as `hollow` may have an empty body. -/
def BodiesGiven (hollow : Prop) (sites : List Site) : Prop :=
  ∀ site ∈ sites, site.definition.body = [] → hollow

section Functions
variable {hollow : Prop}

theorem parameters_yields (xs : List String) {s : LowerState} {cx : Context} {σ : Scope Storage}
    {L : Layout} {waiting : List (BlockId × String)} {p : Point} (h : s.At cx σ L waiting p) :
    Yields hollow (xs.forM Lower.parameter) s fun _ t =>
      t.At cx (parameterScope σ p.reg xs) (L.append (parameterCode p.reg xs)) waiting
        (p.skip xs.length) := by
  induction xs generalizing s σ L p with
  | nil => exact .pure h
  | cons x xs ih =>
    change Yields hollow (Lower.parameter x >>= fun _ => xs.forM Lower.parameter) s _
    simp only [Lower.parameter, bind_assoc]
    refine .bind (freshReg_yields h) ?_
    rintro _ s₁ ⟨rfl, hs₁⟩
    refine .bind (emit_yields hs₁ _) fun _ s₂ hs₂ => ?_
    refine .bind (emit_yields hs₂ _) fun _ s₃ hs₃ => ?_
    refine .bind (define_yields hs₃ x _) fun _ s₄ hs₄ => ?_
    refine (ih hs₄).mono fun _ s₅ hs₅ => ?_
    simp only [Layout.append_append, List.append_assoc] at hs₅
    have hskip : (p.skip 1).skip xs.length = p.skip (x :: xs).length := by
      simp [Point.skip, Nat.add_assoc, Nat.add_comm 1]
    rwa [hskip] at hs₅

/-- A function whose body leaves a finished builder is added to the module. -/
theorem inFunction_yields {name : String} {params : List String} {root : Scope Storage}
    {body : LowerM Unit} {cx : Context} (post : Context → IR.Function → Prop)
    (h : Yields hollow body ⟨cx, .new name params, root.push⟩ fun _ t =>
      ∃ f, t.builder.finish = .ok f ∧ post t.context f) :
    Yields hollow (inFunction name params root body) cx fun _ cx' =>
      ∃ cx₁ f, post cx₁ f ∧ cx' = cx₁.addFunction f := by
  refine Ends.inFunction (h.mono ?_)
  rintro _ t ⟨f, hf, hp⟩
  rw [hf]
  exact ⟨t.context, f, hp, rfl⟩

/-- Adding the function of a definition to the module finishes the definition. -/
theorem Context.Grows.addFunction {cx cx' : Context} {ds : List Definition} {ss : List Site} {site : Site}
    {f : IR.Function} (h : cx.Grows cx' ds ss)
    (hf : ∀ known, cx'.Agrees known → Compiled cx.abi known site f) :
    cx.Grows (cx'.addFunction f) ds (ss ++ [site]) where
  abi := h.abi
  module := h.module
  signatures := h.signatures
  distinct := h.distinct
  functions := by
    obtain ⟨fs, hfs, hc⟩ := h.functions
    refine ⟨fs ++ [f], ?_, fun known hk => ?_⟩
    · rw [Context.addFunction, hfs, List.append_assoc]
    · exact List.rel_append (hc known hk) (.cons (hf known hk) .nil)

theorem Context.Grows.perm {cx cx' : Context} {ds ds' : List Definition} {ss : List Site}
    (h : cx.Grows cx' ds ss) (hp : ds.Perm ds') : cx.Grows cx' ds' ss :=
  { h with signatures := h.signatures.trans ((hp.map _).append_right _) }

theorem lowerBody_lowers {root : Scope Storage} {function : String} {g : Expr → List Site} (es : List Expr)
    (hes : es = [] → hollow) (h : ∀ e ∈ es, Lowers hollow (e.lower root) (.expr e) (g e)) :
    Lowers hollow (lowerBody function es root) (.body es) (es.flatMap g) := by
  induction es with
  | nil =>
    intro target cx σ L waiting p s hs
    rw [lowerBody]
    exact .fail (hes rfl)
  | cons e es ih =>
    intro target cx σ L waiting p s hs
    cases es with
    | nil =>
      rw [lowerBody, List.flatMap_singleton]
      refine (h e List.mem_cons_self target hs).mono ?_
      rintro _ s₁ ⟨cx₁, σ₁, c₁, p₁, hs₁, hg₁, hem₁⟩
      exact ⟨cx₁, σ₁, c₁, p₁, hs₁, hg₁, fun known hk => .result (hem₁ known hk)⟩
    | cons e' es =>
      rw [lowerBody]
      refine .bind (freshReg_yields hs) ?_
      rintro _ s₁ ⟨rfl, hs₁⟩
      refine .bind (h e List.mem_cons_self _ hs₁) ?_
      rintro _ s₂ ⟨cx₁, σ₁, c₁, p₁, hs₂, hg₁, hem₁⟩
      have hrest := ih nofun fun x hx => h x (List.mem_cons_of_mem _ hx)
      refine (hrest target hs₂).mono ?_
      rintro _ s₃ ⟨cx₂, σ₂, c₂, p₂, hs₃, hg₂, hem₂⟩
      rw [hg₁.abi] at hem₂
      rw [Layout.append_append] at hs₃
      refine ⟨cx₂, σ₂, c₁ ++ c₂, p₂, hs₃, ?_, fun known hk => ?_⟩
      · simpa only [List.flatMap_cons, List.map_append] using hg₁.trans hg₂
      · exact .more nofun (hem₁ known (hg₂.agrees hk)) (hem₂ known hk)

theorem sitesEach_eq_flatMap (visible : List String) (es : List Expr) :
    sitesEach visible es = es.flatMap (·.sites visible) := by
  induction es with
  | nil => simp only [sitesEach, List.flatMap_nil]
  | cons e es ih => rw [sitesEach, ih, List.flatMap_cons]

theorem lowerEach_eq_map (root : Scope Storage) (es : List Expr) :
    lowerEach es root = es.map (·.lower root) := by
  induction es with
  | nil => simp only [lowerEach, List.map_nil]
  | cons e es ih => rw [lowerEach, ih, List.map_cons]

/-- A definition becomes a function, after those in its body. -/
theorem definition_yields {d : Definition} {root : Scope Storage} {visible : List String}
    (hroot : OnlyFunctions root visible) (hd : d.body = [] → hollow)
    (h : ∀ e ∈ d.body, Lowers hollow (e.lower root) (.expr e) (e.sites visible)) (cx : Context) :
    Yields hollow (d.lower root) cx fun _ cx' =>
      cx.Grows cx' ((sitesEach visible d.body).map (·.definition)) (d.sites visible) := by
  obtain ⟨name, params, body, span⟩ := d
  have hstart : LowerState.At ⟨cx, .new name params, root.push⟩ cx root.push (.start name params) []
      ⟨1, 1, 1, ⟨0⟩⟩ := ⟨rfl, rfl, IR.Builder.holds_new name params, rfl, rfl, rfl, rfl⟩
  rw [Definition.lower, Definition.sites_eq]
  refine (inFunction_yields (fun cx₁ f =>
    cx.Grows cx₁ ((sitesEach visible body).map (·.definition)) (sitesEach visible body) ∧
      ∀ known, cx₁.Agrees known →
        Compiled cx.abi known ⟨⟨name, params, body, span⟩, visible⟩ f) ?_).mono ?_
  · refine .bind (parameters_yields params hstart) fun _ s₁ hs₁ => ?_
    refine .bind (freshReg_yields hs₁) ?_
    rintro _ s₂ ⟨rfl, hs₂⟩
    refine .bind (lowerBody_lowers body hd h _ hs₂) ?_
    rintro _ s₃ ⟨cx₁, σ₁, code, p₁, hs₃, hg, hem⟩
    refine (terminate_yields hs₃ _).mono ?_
    rintro _ s₄ ⟨rfl, hfin⟩
    rw [Layout.append_append, Layout.start_append_finish] at hfin
    rw [← sitesEach_eq_flatMap] at hg
    have hpoint : ((⟨1, 1, 1, ⟨0⟩⟩ : Point).skip params.length).skip 1 =
        ⟨params.length + 2, 1, 1, ⟨0⟩⟩ := by simp [Point.skip, Nat.add_comm 1]
    have htarget : ((⟨1, 1, 1, ⟨0⟩⟩ : Point).skip params.length).fresh 0 = ⟨params.length + 1⟩ := by
      simp [Point.skip, Point.fresh, Nat.add_comm 1]
    rw [hpoint, htarget] at hem
    rw [htarget] at hfin
    exact ⟨_, hfin, hg, fun known hk => ⟨rfl, rfl, root, code, σ₁, p₁, hroot, hem known hk, rfl⟩⟩
  · rintro _ cx' ⟨cx₁, f, ⟨hg, hf⟩, rfl⟩
    exact hg.addFunction hf

/-! ## Expressions -/

theorem throw_lowers {e : CompileError} (h : e.BlamesProgram hollow) (piece : Reg → Piece)
    (sites : List Site) : Lowers hollow (fun _ => throw e) piece sites :=
  fun _ {_ _ _ _ _ _} _ => .fail h

/-- Code of a piece that is also the code of another. -/
theorem Lowers.imp {l : Lowering} {piece piece' : Reg → Piece} {sites : List Site}
    (h : Lowers hollow l piece sites)
    (hp : ∀ {abi known r σ p code σ' p'}, Emits abi known (piece r) σ p code σ' p' →
      Emits abi known (piece' r) σ p code σ' p') : Lowers hollow l piece' sites := by
  intro target cx σ L waiting p s hs
  refine (h target hs).mono ?_
  rintro _ t ⟨cx', σ', code, p', ht, hg, hem⟩
  exact ⟨cx', σ', code, p', ht, hg, fun known hk => hp (hem known hk)⟩

theorem OnlyFunctions.push {root : Scope Storage} {visible : List String}
    (h : OnlyFunctions root visible) : OnlyFunctions root.push visible := by
  intro x
  rw [Scope.lookup?_push]
  exact h x

theorem OnlyFunctions.define {root : Scope Storage} {visible : List String}
    (h : OnlyFunctions root visible) (name : String) :
    OnlyFunctions (root.define name .function) (name :: visible) := by
  intro x
  by_cases hx : x = name
  · rw [hx, Scope.lookup?_define_self, if_pos List.mem_cons_self]
  · rw [Scope.lookup?_define_ne _ _ hx, h x]
    simp [hx]

theorem Expr.lower_define (d : Definition) (span : Span) (root : Scope Storage) :
    (Expr.define d span).lower root = fun target => (do
      LowerM.inContext (declare d)
      LowerM.define d.name .function
      LowerM.inContext (d.lower (root.push.define d.name .function))
      Lower.constant 0 target) := rfl

theorem Expr.lower_branch (t : Call) (yes : Expr) (no : Option Expr) (span : Span)
    (root : Scope Storage) : (Expr.branch t yes no span).lower root =
      Lower.conditional t.head t.span (lowerEach t.args root) (yes.lower root)
        (no.map (·.lower root)) := by
  cases t
  cases no <;> rfl

def Lowerable (hollow : Prop) (e : Expr) : Prop :=
  ∀ root visible, OnlyFunctions root visible → BodiesGiven hollow (e.sites visible) →
    Lowers hollow (e.lower root) (.expr e) (e.sites visible)

theorem define_lowerable {d : Definition} (span : Span) (h : ∀ e ∈ d.body, Lowerable hollow e) :
    Lowerable hollow (.define d span) := by
  intro root visible hroot hgiven
  have hroot' := hroot.push.define d.name
  simp only [Expr.sites] at hgiven ⊢
  rw [Definition.sites_eq] at hgiven
  rw [Expr.lower_define]
  intro target cx σ L waiting p s hs
  have hbody : ∀ e ∈ d.body, Lowers hollow (e.lower (root.push.define d.name .function)) (.expr e)
      (e.sites (d.name :: visible)) := by
    intro e he
    refine h e he _ _ hroot' fun site hsite => hgiven site ?_
    exact List.mem_append_left _ (mem_sitesEach.mpr ⟨e, he, hsite⟩)
  have hd : d.body = [] → hollow := hgiven _ (List.mem_append_right _ List.mem_cons_self)
  refine .bind (inContext_yields hs (declare_yields d cx)) ?_
  rintro _ s₁ ⟨cx₁, hg₁, hs₁⟩
  refine .bind (define_yields hs₁ d.name _) fun _ s₂ hs₂ => ?_
  refine .bind (inContext_yields hs₂ (definition_yields hroot' hd hbody cx₁)) ?_
  rintro _ s₃ ⟨cx₂, hg₂, hs₃⟩
  refine (emit_yields hs₃ _).mono fun _ s₄ hs₄ => ?_
  refine ⟨cx₂, _, _, p, hs₄, (hg₁.trans hg₂).perm ?_, fun known _ => .define d span target σ p⟩
  rw [Definition.sites_eq, List.map_append]
  exact List.perm_append_comm

/-- A comparison of any other number of operands than two is a fault. -/
theorem comparison_eq_throw {args : List Lowering} (h : args.length ≠ 2) (op : CompareOp) (head : String)
    (span : Span) : Lower.comparison op head span args =
      fun _ => throw (.wrongArity head (.exactly 2) args.length span) := by
  match args with
  | [] | [_] | _ :: _ :: _ :: _ => rfl
  | [_, _] => exact absurd rfl h

/-- The expressions in a list are compiled where the same functions are visible. -/
theorem Lowerable.each {es : List Expr} {root : Scope Storage} {visible : List String}
    (h : ∀ e ∈ es, Lowerable hollow e) (hroot : OnlyFunctions root visible)
    (hgiven : BodiesGiven hollow (sitesEach visible es)) :
    ∀ e ∈ es, Lowers hollow (e.lower root) (.expr e) (e.sites visible) :=
  fun e he => h e he root visible hroot fun site hsite =>
    hgiven site (mem_sitesEach.mpr ⟨e, he, hsite⟩)

theorem branch_lowerable {t : Call} {yes : Expr} {no : Option Expr} (span : Span)
    (ht : ∀ e ∈ t.args, Lowerable hollow e) (hyes : Lowerable hollow yes)
    (hno : ∀ e ∈ no, Lowerable hollow e) : Lowerable hollow (.branch t yes no span) := by
  intro root visible hroot hgiven
  rw [Expr.sites_branch] at hgiven ⊢
  rw [Expr.lower_branch, lowerEach_eq_map, Lower.conditional]
  split
  case h_2 =>
    refine throw_lowers ?_ _ _
    exact trivial
  case h_1 op hop =>
    obtain ⟨hgiven, hgivenNo⟩ := List.forall_mem_append.mp hgiven
    obtain ⟨hgivenArgs, hgivenYes⟩ := List.forall_mem_append.mp hgiven
    have hargs := Lowerable.each ht hroot hgivenArgs
    have hyes := hyes root visible hroot hgivenYes
    by_cases hlen : t.args.length = 2
    · obtain ⟨x, y, hxy⟩ := List.length_eq_two.mp hlen
      rw [hxy] at hargs ⊢
      have htest := comparison_lowers op t.head t.span (hargs x (by simp)) (hargs y (by simp))
      simp only [sitesEach, List.append_nil]
      cases no with
      | none =>
        simp only [Option.toList_none, sitesEach, List.append_nil]
        exact choice_none_lowers hop hxy span htest hyes
      | some e =>
        simp only [Option.toList_some, sitesEach, List.append_nil] at hgivenNo ⊢
        exact choice_some_lowers hop hxy span htest hyes (hno e rfl root visible hroot hgivenNo)
    · intro target cx σ L waiting p s hs
      rw [comparison_eq_throw (by simpa using hlen)]
      refine .bind (freshReg_yields hs) ?_
      rintro _ s₁ ⟨rfl, hs₁⟩
      exact .fail_bind trivial

theorem Call.lower_eq (c : Call) (root : Scope Storage) : c.lower root =
    match Builtin.ofHead? c.head with
    | some (.arith op) => Lower.arithmetic op c.head c.span (lowerEach c.args root)
    | some (.compare op) => Lower.comparisonValue op c.head c.span (lowerEach c.args root)
    | some .sysWrite =>
      match c.args with
      | [fd, .ref value _, length] =>
        Lower.write (fd.lower root) (Lower.spill (value.lower root)) (length.lower root)
      | [_, other, _] => fun _ => throw (.typeMismatch .reference other.category other.span)
      | _ => fun _ => throw (.wrongArity c.head (.exactly 3) c.args.length c.span)
    | none => Lower.userCall c.head c.span (lowerEach c.args root) := by
  cases c
  unfold Call.lower
  rfl

/-- A call; the operand of a write that is a reference is compiled without the reference. -/
theorem call_lowerable {c : Call} (span : Span) (h : ∀ e ∈ c.args, Lowerable hollow e)
    (href : ∀ e s, .ref e s ∈ c.args → Lowerable hollow e) : Lowerable hollow (.call c span) := by
  intro root visible hroot hgiven
  have heq : (Expr.call c span).lower root = c.lower root := rfl
  rw [Expr.sites_call] at hgiven ⊢
  rw [heq]
  have hargs := Lowerable.each h hroot hgiven
  rw [Call.lower_eq]
  split
  case h_1 op hop =>
    rw [Lower.arithmetic, lowerEach_eq_map, Split.ofList?_map, sitesEach_eq_flatMap]
    cases ht : Split.ofList? op c.args with
    | none =>
      refine throw_lowers ?_ _ _
      exact trivial
    | some t =>
      have hleaves := Split.leaves_of_ofList? ht
      rw [← hleaves] at hargs ⊢
      exact (tree_lowers t hargs).imp fun hem => .arith hop ht hem
  case h_2 op hop =>
    rw [lowerEach_eq_map]
    by_cases hlen : c.args.length = 2
    · obtain ⟨x, y, hxy⟩ := List.length_eq_two.mp hlen
      rw [hxy] at hargs ⊢
      simp only [sitesEach, List.append_nil]
      exact comparisonValue_lowers hop hxy span (hargs x (by simp)) (hargs y (by simp))
    · intro target cx σ L waiting p s hs
      rw [Lower.comparisonValue, comparison_eq_throw (by simpa using hlen)]
      refine .bind (freshReg_yields hs) ?_
      rintro _ s₁ ⟨rfl, hs₁⟩
      exact .fail_bind trivial
  case h_3 hop =>
    split
    case h_1 fd value sr length hxyz =>
      rw [hxyz] at hargs hgiven href ⊢
      simp only [sitesEach, List.append_nil] at hgiven ⊢
      have hvalue := href value sr (by simp) root visible hroot fun site hsite =>
        hgiven site (by simp [Expr.sites, hsite])
      rw [← List.append_assoc]
      exact write_lowers hop hxyz span (hargs fd (by simp)) (spill_lowers hvalue) (hargs length (by simp))
    all_goals
      refine throw_lowers ?_ _ _
      exact trivial
  case h_4 hop =>
    rw [lowerEach_eq_map, sitesEach_eq_flatMap]
    exact userCall_lowers span hop hargs

/-- Compilation emits the code of every expression. -/
theorem Expr.lowerable (e : Expr) : Lowerable hollow e := by
  suffices Lowerable hollow e ∧ ∀ v s, e = .ref v s → Lowerable hollow v from this.1
  induction e using Expr.induction with
  | int v s => exact ⟨fun _ _ _ _ => constant_lowers v s, nofun⟩
  | name x s => exact ⟨fun _ _ _ _ => load_lowers x s, nofun⟩
  | ref e s ih =>
    refine ⟨fun root visible _ _ => ?_, fun v s' h => ?_⟩
    · refine throw_lowers ?_ _ _
      exact trivial
    · cases h
      exact ih.1
  | call c s ih =>
    exact ⟨call_lowerable s (fun e he => (ih e he).1) fun e s he => (ih _ he).2 e s rfl, nofun⟩
  | define d s ih => exact ⟨define_lowerable s fun e he => (ih e he).1, nofun⟩
  | branch t y n s iht ihy ihn =>
    exact ⟨branch_lowerable s (fun e he => (iht e he).1) ihy.1 fun e he => (ihn e he).1, nofun⟩

end Functions
end SmallLisp
