import SmallLisp.Proofs.FaultlessSteps

/-! # Well-formed programs are compiled

Compiling fails for the program's own faults or for bugs of the compiler, and of the latter there are none.
So it is enough that no step of the compilation of a well-formed program finds a fault. By induction over
expressions this holds of whatever keeps the rules for names.
-/
namespace SmallLisp

/-! ## Functions -/

section Functions
variable {program : List Expr} {visible : List String} {Γ Γ₁ : Names} {g : Expr → List Definition}
  {root : Scope Storage}

theorem lowerBody_admits {function : String} {es : List Expr} (hne : es ≠ [])
    (h : AdmitsEach program visible (·.lower root) g Γ es Γ₁) :
    Admits program visible Γ (lowerBody function es root) (es.flatMap g) Γ₁ := by
  induction h with
  | nil Γ => exact absurd rfl hne
  | @cons Γ₀ Γ₁ Γ₂ e es h hs ih =>
    cases hs with
    | nil _ =>
      intro target known rest s hv hs
      rw [lowerBody]
      rw [List.flatMap_singleton] at hs
      exact h target hv hs
    | cons h' hs' =>
      intro target known rest s hv hs
      rw [lowerBody]
      rw [List.flatMap_cons, List.append_assoc] at hs
      refine .bind (freshReg_ready hs) fun r s₁ hs₁ => ?_
      exact .bind (h r hv hs₁) fun _ s₂ hs₂ => ih (List.cons_ne_nil _ _) target hv hs₂

theorem parameters_ready {known : List String} {pending : List Definition} (xs : List String) {s : LowerState}
    (h : s.Ready program known Γ pending) :
    Ends CompileError.Blameless (xs.forM Lower.parameter) s fun _ t =>
      t.Ready program known (xs.reverse.map (·, .variable) ++ Γ) pending := by
  induction xs generalizing s Γ with
  | nil => exact .pure h
  | cons x xs ih =>
    have hΓ : (x :: xs).reverse.map (·, Role.variable) ++ Γ =
        xs.reverse.map (·, Role.variable) ++ (x, .variable) :: Γ := by simp
    rw [hΓ]
    change Ends _ (Lower.parameter x >>= fun _ => xs.forM Lower.parameter) s _
    simp only [Lower.parameter, bind_assoc]
    refine .bind (freshReg_ready h) fun slot s₁ hs₁ => ?_
    refine .bind (build_ready hs₁ _) fun _ s₂ hs₂ => ?_
    refine .bind (build_ready hs₂ _) fun _ s₃ hs₃ => ?_
    exact .bind (define_ready hs₃ x (.slot slot) (by simp [Storage.role])) fun _ s₄ hs₄ => ih hs₄

/-- A definition whose body is compiled from its own names. -/
theorem definition_awaits {d : Definition} (hroot : OnlyFunctions root visible) (hne : d.body ≠ [])
    (h : AdmitsEach program visible (·.lower root) g (Site.names ⟨d, visible⟩) d.body Γ₁) {known : List String}
    {rest : List Definition} {cx : Context} (hv : visible ⊆ known)
    (hcx : cx.Awaits program known (d.body.flatMap g ++ rest)) :
    Ends CompileError.Blameless (d.lower root) cx fun _ cx' => cx'.Awaits program known rest := by
  obtain ⟨name, params, body, span⟩ := d
  have hstart : LowerState.Ready program known (visible.map (·, .function)) (body.flatMap g ++ rest)
      ⟨cx, .new name params, root.push⟩ := by
    refine ⟨.of_onlyFunctions hroot.push, fun x hx => ?_, hcx⟩
    rw [Names.lookup_functions] at hx
    by_cases hmem : x ∈ visible
    · exact hcx.known (hv hmem)
    · rw [if_neg hmem] at hx
      cases hx
  rw [Definition.lower]
  refine .inFunction ?_
  refine .bind (parameters_ready params hstart) fun _ s₁ hs₁ => ?_
  refine .bind (freshReg_ready hs₁) fun result s₂ hs₂ => ?_
  refine .bind (lowerBody_admits hne h result hv hs₂) fun _ s₃ hs₃ => ?_
  refine (build_ready hs₃ _).mono fun _ s₄ hs₄ => ?_
  cases s₄.builder.finish with
  | ok f => exact ⟨hs₄.context.known, hs₄.context.entries, hs₄.context.mem, hs₄.context.distinct⟩
  | error cause => exact id

end Functions

/-! ## Expressions -/

section Expressions
variable {program : List Expr}

/-- An expression that keeps the rules, with definitions in it whose bodies do, is compiled without fault. -/
def Admissible (program : List Expr) (e : Expr) : Prop :=
  ∀ root visible, OnlyFunctions root visible → (∀ site ∈ e.sites visible, site.Checked program) →
    ∀ Γ Γ', Checks program Γ e Γ' →
      Admits program visible Γ (e.lower root) ((e.sites visible).map (·.definition)) Γ'

/-- Expressions in order, each admissible. -/
theorem Admissible.each {es : List Expr} (h : ∀ e ∈ es, Admissible program e) {root : Scope Storage}
    {visible : List String} (hroot : OnlyFunctions root visible)
    (hsites : ∀ site ∈ sitesEach visible es, site.Checked program) {Γ Γ' : Names}
    (hes : InTurn (Checks program) Γ es Γ') :
    AdmitsEach program visible (·.lower root) (fun e => (e.sites visible).map (·.definition)) Γ es Γ' := by
  refine hes.imp fun e he Γ₁ Γ₂ hstep => ?_
  exact h e he root visible hroot (fun site hs => hsites site (mem_sitesEach.mpr ⟨e, he, hs⟩)) Γ₁ Γ₂ hstep

theorem map_definition_sitesEach_eq (visible : List String) (es : List Expr) :
    (sitesEach visible es).map (·.definition) = es.flatMap fun e => (e.sites visible).map (·.definition) := by
  rw [sitesEach_eq_flatMap, List.map_flatMap]

theorem define_admissible {d : Definition} (span : Span) (h : ∀ e ∈ d.body, Admissible program e) :
    Admissible program (.define d span) := by
  intro root visible hroot hsites Γ Γ' hcheck
  cases hcheck
  simp only [Expr.sites] at hsites ⊢
  rw [Definition.sites_eq] at hsites ⊢
  obtain ⟨hne, Γ₁, hbody⟩ := hsites ⟨d, d.name :: visible⟩ (List.mem_append_right _ List.mem_cons_self)
  have hroot' := hroot.push.define d.name
  have hin := Admissible.each h hroot' (fun site hs => hsites site (List.mem_append_left _ hs)) hbody
  intro target known rest s hv hs
  rw [List.map_append, map_definition_sitesEach_eq] at hs
  -- the definition itself is entered before those in its body
  have hcx := hs.context.perm (List.perm_append_comm.append_right rest)
  rw [Expr.lower_define]
  refine .bind (inContext_ready hs (List.subset_cons_self _ _) hcx.declare) fun _ s₁ hs₁ => ?_
  have hname : d.name ∈ s₁.context.names := hs₁.context.known List.mem_cons_self
  refine .bind (define_ready hs₁ d.name .function fun _ => hname) fun _ s₂ hs₂ => ?_
  have hnames : d.name :: s.context.names ⊆ s₂.context.names := hs₂.context.known
  have hvisible : d.name :: visible ⊆ s₂.context.names :=
    List.Subset.trans (List.cons_subset_cons d.name (List.Subset.trans hv hs.context.known)) hnames
  have hlow := definition_awaits hroot' hne hin hvisible hs₂.context.self
  refine .bind (inContext_ready hs₂ (List.Subset.refl _) hlow) fun _ s₃ hs₃ => ?_
  have hknown : known ⊆ s₂.context.names :=
    List.Subset.trans hs.context.known (List.Subset.trans (List.subset_cons_self _ _) hnames)
  have hs₃' : s₃.Ready program known ((d.name, .function) :: Γ) rest :=
    { hs₃ with context := hs₃.context.weaken hknown }
  exact constant_admits 0 target hv hs₃'

theorem branch_admissible {t : Call} {yes : Expr} {no : Option Expr} (span : Span)
    (ht : ∀ e ∈ t.args, Admissible program e) (hyes : Admissible program yes)
    (hno : ∀ e ∈ no, Admissible program e) : Admissible program (.branch t yes no span) := by
  intro root visible hroot hsites Γ Γ' hcheck
  cases hcheck with
  | @branch _ _ _ _ _ op hop hlen h _ =>
    rw [Expr.sites_branch] at hsites ⊢
    obtain ⟨hsites, hsitesNo⟩ := List.forall_mem_append.mp hsites
    obtain ⟨hsitesArgs, hsitesYes⟩ := List.forall_mem_append.mp hsites
    obtain ⟨Γ₁, hargs, h⟩ := h.of_append
    rw [Expr.lower_branch, lowerEach_eq_map, Lower.conditional, hop, List.map_append, List.map_append,
      map_definition_sitesEach_eq]
    have htest := operands_admits op t.head t.span hlen (Admissible.each ht hroot hsitesArgs hargs)
    cases h with
    | cons hstep hrest =>
      have hvalue := hyes root visible hroot hsitesYes _ _ hstep
      cases no with
      | none =>
        cases hrest
        simpa [sitesEach] using choice_none_admits htest hvalue
      | some e =>
        have hsitesNo : ∀ site ∈ e.sites visible, site.Checked program := by simpa [sitesEach] using hsitesNo
        have hother := hno e rfl root visible hroot hsitesNo _ _ hrest.of_singleton
        simpa [sitesEach] using choice_some_admits htest hvalue hother

/-- A call; the operand of a write that is a reference is compiled without the reference. -/
theorem call_admissible (hdistinct : ((definitions program).map (·.name)).Nodup) {c : Call} (span : Span)
    (h : ∀ e ∈ c.args, Admissible program e) (href : ∀ e s, .ref e s ∈ c.args → Admissible program e) :
    Admissible program (.call c span) := by
  intro root visible hroot hsites Γ Γ' hcheck
  rw [Expr.sites_call] at hsites ⊢
  rw [map_definition_sitesEach_eq]
  have hlower : (Expr.call c span).lower root = c.lower root := rfl
  rw [hlower, Call.lower_eq]
  cases hcheck with
  | arith hop hne hargs _ =>
    have heach := Admissible.each h hroot hsites hargs
    obtain ⟨t, ht⟩ := Split.ofList?_isSome _ c.args hne
    have hleaves := Split.leaves_of_ofList? ht
    rw [← hleaves] at heach
    simp only [hop]
    rw [Lower.arithmetic, lowerEach_eq_map, Split.ofList?_map, ht, ← hleaves]
    exact tree_admits heach
  | compare hop hlen hargs _ =>
    have heach := Admissible.each h hroot hsites hargs
    simp only [hop]
    rw [lowerEach_eq_map]
    exact comparisonValue_admits _ _ _ (operands_admits _ _ _ hlen heach)
  | @write _ _ _ fd e length sr hop hargs hin _ =>
    simp only [hop, hargs]
    rw [hargs] at hsites h href
    simp only [sitesEach, Expr.sites, List.append_nil, List.forall_mem_append] at hsites
    obtain ⟨hsites₁, hsites₂, hsites₃⟩ := hsites
    cases hin with
    | cons h₁ hin =>
      cases hin with
      | cons h₂ hin =>
        have hfd := h fd (by simp) root visible hroot hsites₁ _ _ h₁
        have hvalue := href e sr (by simp) root visible hroot hsites₂ _ _ h₂
        have hlength := h length (by simp) root visible hroot hsites₃ _ _ hin.of_singleton
        simpa [Expr.sites] using write_admits hfd (spill_admits hvalue) hlength
  | user hop hhead harity hargs _ =>
    have heach := Admissible.each h hroot hsites hargs
    simp only [hop]
    rw [lowerEach_eq_map]
    exact userCall_admits c.span hdistinct hhead harity heach

/-- Whatever keeps the rules is compiled without fault. -/
theorem Expr.admissible (hdistinct : ((definitions program).map (·.name)).Nodup) (e : Expr) :
    Admissible program e := by
  suffices h : Admissible program e ∧ ∀ target s, e = .ref target s → Admissible program target from h.1
  induction e using Expr.induction with
  | int v s =>
    refine ⟨fun root visible _ _ Γ Γ' hcheck => ?_, nofun⟩
    cases hcheck
    exact constant_admits v
  | name x s =>
    refine ⟨fun root visible _ _ Γ Γ' hcheck => ?_, nofun⟩
    cases hcheck with
    | name hx _ => exact load_admits hx s
  | ref target s ih =>
    refine ⟨fun root visible _ _ Γ Γ' hcheck => ?_, fun target' s' he => ?_⟩
    · cases hcheck
    · cases he
      exact ih.1
  | define d s ih => exact ⟨define_admissible s fun e he => (ih e he).1, nofun⟩
  | call c s ih =>
    exact ⟨call_admissible hdistinct s (fun e he => (ih e he).1) fun e s he => (ih _ he).2 e s rfl, nofun⟩
  | branch t y n s iht ihy ihn =>
    exact ⟨branch_admissible s (fun e he => (iht e he).1) ihy.1 fun e he => (ihn e he).1, nofun⟩

end Expressions

/-! ## Programs -/

section Programs
variable {program : List Expr}

/-- The forms at the top are entered before any body is compiled. -/
theorem declareFrom_awaits {es : List Expr} (hforms : ∀ e ∈ es, ∃ d s, e = .define d s) {root : Scope Storage}
    {visible known : List String} (hroot : OnlyFunctions root visible) {rest : List Definition} {cx : Context}
    (hcx : cx.Awaits program known (topDefinitions es ++ rest)) :
    Ends CompileError.Blameless (declareFrom root es) cx fun result cx' =>
      result.2 = topDefinitions es ∧ OnlyFunctions result.1 ((topDefinitions es).reverse.map (·.name) ++ visible) ∧
      cx'.Awaits program ((topDefinitions es).map (·.name) ++ cx.names) rest := by
  induction es generalizing root visible cx known with
  | nil => exact .pure ⟨rfl, hroot, hcx.self⟩
  | cons e es ih =>
    obtain ⟨⟨d, s, rfl⟩, hes⟩ := List.forall_mem_cons.mp hforms
    have htop : topDefinitions (.define d s :: es) = d :: topDefinitions es := rfl
    rw [htop] at hcx ⊢
    rw [declareFrom]
    refine .bind hcx.declare fun _ cx₁ hcx₁ => ?_
    refine .bind (ih hes (hroot.define d.name) hcx₁) ?_
    rintro ⟨root', ds⟩ cx₂ ⟨rfl, hroot', hcx₂⟩
    refine .pure ⟨rfl, by simpa using hroot', hcx₂.weaken ?_⟩
    rw [List.map_cons, List.cons_append]
    refine List.cons_subset.mpr ⟨List.mem_append_right _ (hcx₁.known List.mem_cons_self), ?_⟩
    refine List.append_subset.mpr ⟨List.subset_append_left _ _, ?_⟩
    exact List.Subset.trans (List.subset_cons_self _ _) (List.Subset.trans hcx₁.known (List.subset_append_right _ _))

/-- Definitions at the top are compiled one after the other. -/
theorem definitions_await (hdistinct : ((definitions program).map (·.name)).Nodup) {ds : List Definition}
    {root : Scope Storage} {visible known : List String} (hroot : OnlyFunctions root visible)
    (hsites : ∀ site ∈ ds.flatMap (·.sites visible), site.Checked program) (hv : visible ⊆ known) {cx : Context}
    (hcx : cx.Awaits program known (ds.flatMap fun d => (sitesEach visible d.body).map (·.definition))) :
    Ends CompileError.Blameless (ds.forM (·.lower root)) cx fun _ cx' => cx'.Awaits program known [] := by
  induction ds generalizing cx with
  | nil => exact .pure hcx
  | cons d ds ih =>
    rw [List.flatMap_cons] at hcx hsites
    obtain ⟨hd, hds⟩ := List.forall_mem_append.mp hsites
    rw [Definition.sites_eq] at hd
    obtain ⟨hbodies, hself⟩ := List.forall_mem_append.mp hd
    obtain ⟨hne, Γ, hbody⟩ := hself _ List.mem_cons_self
    have heach := Admissible.each (fun e _ => e.admissible hdistinct) hroot hbodies hbody
    rw [map_definition_sitesEach_eq] at hcx
    exact .bind (definition_awaits hroot hne heach hv hcx) fun _ cx₁ hcx₁ => ih hds hcx₁

/-- A well-formed program is compiled. -/
theorem WellFormed.exists_compile (h : WellFormed program) (abi : IR.Abi) (name : String) :
    ∃ m, compile abi name program = .ok m := by
  have hperm := perm_flatMap_sites (topDefinitions program) ((topDefinitions program).map (·.name))
  change (topDefinitions program ++ _).Perm ((programSites program).map (·.definition)) at hperm
  rw [← definitions_eq_programSites h.forms] at hperm
  have hstart : (Context.new name abi).Awaits program [] (definitions program) :=
    ⟨List.nil_subset _, nofun, fun d hd => hd, h.distinct⟩
  have hstep : Ends CompileError.Blameless (compileSteps program) (.new name abi) fun _ _ => True := by
    refine .bind (declareFrom_awaits h.forms onlyFunctions_empty (hstart.perm hperm.symm)) ?_
    rintro ⟨root, ds⟩ cx ⟨rfl, hroot, hcx⟩
    have hroot' : OnlyFunctions root ((topDefinitions program).map (·.name)) := by
      intro x
      simpa using hroot x
    exact (definitions_await h.distinct hroot' h.bodies (List.subset_append_left _ _) hcx).mono
      fun _ _ _ => trivial
  have hspec := @compile_spec True abi name program fun _ _ _ => trivial
  rw [compile_eq] at hspec ⊢
  unfold Ends at hstep
  cases hr : compileSteps program (.new name abi) with
  | ok _ cx => exact ⟨cx.module, rfl⟩
  | error e cx =>
    rw [hr] at hstep hspec
    exact absurd hspec hstep

/-- Exactly the well-formed programs are compiled. -/
theorem compile_ok_iff_wellFormed (abi : IR.Abi) (name : String) (program : List Expr) :
    (∃ m, compile abi name program = .ok m) ↔ WellFormed program := by
  constructor
  · rintro ⟨m, hm⟩
    exact (compiledProgram_of_compile hm).wellFormed
  · exact fun h => h.exists_compile abi name

end Programs
end SmallLisp
