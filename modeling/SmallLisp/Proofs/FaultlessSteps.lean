import SmallLisp.Proofs.WellFormed

/-! # Steps that find no fault

For the faults of a program only the table of functions and the scope matter, not the code that is emitted.
Where the scope holds the names that the rules know, the table has the functions among them and the
definitions that are still to come have other names, each step of a compilation leads to such a state again
or stops at a bug of the compiler.
-/
namespace SmallLisp
open IR (Reg)

/-- No fault of the program, not even an empty body. -/
def CompileError.Blameless (e : CompileError) : Prop := ¬ e.BlamesProgram True

/-! ## The table -/

def Context.names (cx : Context) : List String := cx.signatures.map (·.1)

/-- The table has the names `known`, it has only definitions of the program, and those that are still to be
entered have other names. -/
structure Context.Awaits (program : List Expr) (known : List String) (pending : List Definition) (cx : Context) :
    Prop where
  known : known ⊆ cx.names
  entries : ∀ entry ∈ cx.signatures, ∃ d ∈ definitions program, entry = d.entry
  mem : ∀ d ∈ pending, d ∈ definitions program
  distinct : (cx.names ++ pending.map (·.name)).Nodup

namespace Context.Awaits
variable {program : List Expr} {known : List String} {pending rest : List Definition} {cx : Context}

theorem perm (h : cx.Awaits program known pending) (hp : pending.Perm rest) : cx.Awaits program known rest :=
  { h with
    mem := fun d hd => h.mem d (hp.mem_iff.mpr hd)
    distinct := ((hp.map _).append_left _).nodup_iff.mp h.distinct }

/-- A definition that is awaited is entered. -/
theorem declare {d : Definition} (h : cx.Awaits program known (d :: rest)) :
    Ends CompileError.Blameless (SmallLisp.declare d) cx fun _ cx' =>
      cx'.Awaits program (d.name :: cx.names) rest := by
  have hnone : cx.signature? d.signature.name = none := by
    refine List.lookup_eq_none_iff.mpr fun entry hentry => ?_
    have hne : entry.1 ≠ d.signature.name :=
      (List.nodup_append.mp h.distinct).2.2 _ (List.mem_map_of_mem hentry) _ List.mem_cons_self
    simpa using hne.symm
  unfold Ends
  rw [declare_run, Context.register, hnone]
  obtain ⟨hd, hrest⟩ := List.forall_mem_cons.mp h.mem
  refine ⟨List.Subset.refl _, List.forall_mem_cons.mpr ⟨⟨d, hd, rfl⟩, h.entries⟩, hrest, ?_⟩
  exact List.perm_middle.nodup_iff.mp h.distinct

theorem weaken {known' : List String} (h : cx.Awaits program known pending) (hk : known' ⊆ known) :
    cx.Awaits program known' pending :=
  { h with known := List.Subset.trans hk h.known }

theorem self (h : cx.Awaits program known pending) : cx.Awaits program cx.names pending :=
  { h with known := List.Subset.refl _ }

/-- The entry of a function has the number of parameters that the program gives it. -/
theorem signature? (h : cx.Awaits program known pending) (hdistinct : ((definitions program).map (·.name)).Nodup)
    {x : String} {n : Nat} (hx : x ∈ cx.names) (hd : Defines program x n) :
    ∃ sig, cx.signature? x = some sig ∧ sig.arity = n := by
  obtain ⟨entry, hentry, rfl⟩ := List.mem_map.mp hx
  cases hs : cx.signature? entry.1 with
  | none =>
    have hne := List.lookup_eq_none_iff.mp hs entry hentry
    simp at hne
  | some sig =>
    obtain ⟨d, hd, hname, rfl⟩ := hd
    obtain ⟨d', hd', he⟩ := h.entries _ (Context.mem_of_signature? hs)
    obtain ⟨hname', rfl⟩ := Prod.mk.inj he
    rw [List.inj_on_of_nodup_map hdistinct hd hd' (hname.trans hname')]
    exact ⟨_, rfl, rfl⟩

end Context.Awaits

/-! ## Steps without fault -/

structure LowerState.Ready (program : List Expr) (known : List String) (Γ : Names) (pending : List Definition)
    (s : LowerState) : Prop where
  scope : Γ.Describes s.scope
  functions : ∀ x, Γ.lookup x = some .function → x ∈ s.context.names
  context : s.context.Awaits program known pending

/-- A combinator that finds no fault where it is given names `Γ`, and that enters the definitions `ds`. All
it takes for granted of the table are the names that are visible. -/
def Admits (program : List Expr) (visible : List String) (Γ : Names) (l : Lowering) (ds : List Definition)
    (Γ' : Names) : Prop :=
  ∀ target {known rest s}, visible ⊆ known → s.Ready program known Γ (ds ++ rest) →
    Ends CompileError.Blameless (l target) s fun _ t => t.Ready program known Γ' rest

section Steps
variable {program : List Expr} {known : List String} {Γ : Names} {pending : List Definition} {s : LowerState}

theorem freshReg_ready (h : s.Ready program known Γ pending) :
    Ends CompileError.Blameless LowerM.freshReg s fun _ t => t.Ready program known Γ pending :=
  ⟨h.scope, h.functions, h.context⟩

theorem freshLabel_ready (h : s.Ready program known Γ pending) :
    Ends CompileError.Blameless LowerM.freshLabel s fun _ t => t.Ready program known Γ pending :=
  ⟨h.scope, h.functions, h.context⟩

theorem newBlock_ready (h : s.Ready program known Γ pending) (label : String) :
    Ends CompileError.Blameless (LowerM.newBlock label) s fun _ t => t.Ready program known Γ pending :=
  ⟨h.scope, h.functions, h.context⟩

theorem currentBlock_ready (h : s.Ready program known Γ pending) :
    Ends CompileError.Blameless LowerM.currentBlock s fun _ t => t.Ready program known Γ pending := h

/-- Misuse of the builder is no fault of the program. -/
theorem build_ready (h : s.Ready program known Γ pending) (step : IR.Builder → Except IR.Misuse IR.Builder) :
    Ends CompileError.Blameless (LowerM.build step) s fun _ t => t.Ready program known Γ pending := by
  unfold Ends
  rw [LowerM.build_run]
  cases step s.builder with
  | ok b => exact ⟨h.scope, h.functions, h.context⟩
  | error m => exact id

theorem define_ready (h : s.Ready program known Γ pending) (x : String) (storage : Storage)
    (hx : storage.role = .function → x ∈ s.context.names) :
    Ends CompileError.Blameless (LowerM.define x storage) s fun _ t =>
      t.Ready program known ((x, storage.role) :: Γ) pending := by
  refine ⟨h.scope.define x storage, fun y hy => ?_, h.context⟩
  rw [Scope.lookup_cons_eq_ite] at hy
  by_cases hxy : x = y
  · rw [if_pos hxy] at hy
    exact hxy ▸ hx (Option.some.inj hy)
  · rw [if_neg hxy] at hy
    exact h.functions y hy

/-- A step of the context that keeps the names in the table. -/
theorem inContext_ready {step : ContextM Unit} {known' : List String} {rest : List Definition}
    (h : s.Ready program known Γ pending) (hk : s.context.names ⊆ known')
    (hs : Ends CompileError.Blameless step s.context fun _ cx => cx.Awaits program known' rest) :
    Ends CompileError.Blameless (LowerM.inContext step) s fun _ t => t.Ready program known' Γ rest := by
  refine .inContext (hs.mono fun _ cx hcx => ?_)
  exact ⟨h.scope, fun x hx => hcx.known (hk (h.functions x hx)), hcx⟩

end Steps

/-! ## Combinators -/

section Combinators
variable {program : List Expr} {visible : List String} {Γ Γ₁ Γ₂ Γ₃ : Names}
  {ds₁ ds₂ ds₃ : List Definition}

theorem constant_admits (v : Int64) : Admits program visible Γ (Lower.constant v) [] Γ := by
  intro target known rest s _ hs
  have hs : s.Ready program known Γ rest := hs
  exact build_ready hs (·.emit _)

theorem load_admits {x : String} (hx : Γ.lookup x = some .variable) (span : Span) :
    Admits program visible Γ (Lower.load x span) [] Γ := by
  intro target known rest s _ hs
  obtain ⟨storage, hstorage, hrole⟩ := Option.map_eq_some_iff.mp ((hs.scope x).symm.trans hx)
  refine .get_bind ?_
  rw [hstorage]
  cases storage with
  | slot r => exact build_ready hs _
  | function => cases hrole

theorem spill_admits {value : Lowering} (h : Admits program visible Γ value ds₁ Γ₁) :
    Admits program visible Γ (Lower.spill value) ds₁ Γ₁ := by
  intro target known rest s hv hs
  refine .bind (freshReg_ready hs) fun r s₁ hs₁ => ?_
  refine .bind (h r hv hs₁) fun _ s₂ hs₂ => ?_
  exact .bind (build_ready hs₂ _) fun _ s₃ hs₃ => build_ready hs₃ _

/-- The definitions of two parts are entered one after the other. -/
theorem Admits.then {l₁ l₂ : Lowering} (h₁ : Admits program visible Γ l₁ ds₁ Γ₁)
    (h₂ : Admits program visible Γ₁ l₂ ds₂ Γ₂) (r₁ r₂ : Reg) {α : Type} {f : LowerM α}
    {known : List String} {rest : List Definition} {s : LowerState} {post : α → LowerState → Prop}
    (hv : visible ⊆ known) (hs : s.Ready program known Γ (ds₁ ++ ds₂ ++ rest))
    (hf : ∀ t : LowerState, t.Ready program known Γ₂ rest → Ends CompileError.Blameless f t post) :
    Ends CompileError.Blameless (do l₁ r₁; l₂ r₂; f) s post := by
  rw [List.append_assoc] at hs
  refine .bind (h₁ r₁ hv hs) fun _ s₁ hs₁ => ?_
  exact .bind (h₂ r₂ hv hs₁) fun _ s₂ hs₂ => hf s₂ hs₂

theorem comparison_admits {left right : Lowering} (op : CompareOp) (head : String) (span : Span)
    (h₁ : Admits program visible Γ left ds₁ Γ₁) (h₂ : Admits program visible Γ₁ right ds₂ Γ₂) :
    Admits program visible Γ (Lower.comparison op head span [left, right]) (ds₁ ++ ds₂) Γ₂ := by
  intro target known rest s hv hs
  refine .bind (freshReg_ready hs) fun lhs s₁ hs₁ => ?_
  refine .bind (freshReg_ready hs₁) fun rhs s₂ hs₂ => ?_
  exact h₁.then h₂ lhs rhs hv hs₂ fun t ht => build_ready ht _

theorem comparisonValue_admits {args : List Lowering} (op : CompareOp) (head : String) (span : Span)
    (h : Admits program visible Γ (Lower.comparison op head span args) ds₁ Γ₁) :
    Admits program visible Γ (Lower.comparisonValue op head span args) ds₁ Γ₁ := by
  intro target known rest s hv hs
  refine .bind (freshReg_ready hs) fun flag s₁ hs₁ => ?_
  exact .bind (h flag hv hs₁) fun _ s₂ hs₂ => build_ready hs₂ _

section Lists
variable {f : Expr → Lowering} {g : Expr → List Definition}

abbrev AdmitsEach (program : List Expr) (visible : List String) (f : Expr → Lowering)
    (g : Expr → List Definition) : Names → List Expr → Names → Prop :=
  InTurn fun Γ e Γ' => Admits program visible Γ (f e) (g e) Γ'

theorem operands_admits {es : List Expr} (op : CompareOp) (head : String) (span : Span) (hlen : es.length = 2)
    (h : AdmitsEach program visible f g Γ es Γ₁) :
    Admits program visible Γ (Lower.comparison op head span (es.map f)) (es.flatMap g) Γ₁ := by
  obtain ⟨x, y, rfl⟩ := List.length_eq_two.mp hlen
  cases h with
  | cons hx hs =>
    have hcomparison := comparison_admits op head span hx hs.of_singleton
    simpa using hcomparison

theorem tree_admits {t : Split Expr} (h : AdmitsEach program visible f g Γ t.leaves Γ₁) :
    Admits program visible Γ (Lower.tree (t.map f)) (t.leaves.flatMap g) Γ₁ := by
  induction t generalizing Γ Γ₁ with
  | leaf e =>
    rw [Split.leaves, List.flatMap_singleton]
    exact h.of_singleton
  | node op left right ihl ihr =>
    obtain ⟨Γ', hl, hr⟩ := h.of_append
    rw [Split.leaves, List.flatMap_append]
    intro target known rest s hv hs
    refine .bind (freshReg_ready hs) fun lhs s₁ hs₁ => ?_
    refine .bind (freshReg_ready hs₁) fun rhs s₂ hs₂ => ?_
    exact (ihl hl).then (ihr hr) lhs rhs hv hs₂ fun t ht => build_ready ht _

theorem operands_ready {es : List Expr} (h : AdmitsEach program visible f g Γ es Γ₁) {known : List String}
    {rest : List Definition} {s : LowerState} (hv : visible ⊆ known)
    (hs : s.Ready program known Γ (es.flatMap g ++ rest)) :
    Ends CompileError.Blameless (Lower.operands (es.map f)) s fun _ t => t.Ready program known Γ₁ rest := by
  induction h generalizing s with
  | nil Γ => exact .pure hs
  | cons h _ ih =>
    rw [List.flatMap_cons, List.append_assoc] at hs
    refine .bind (freshReg_ready hs) fun r s₁ hs₁ => ?_
    refine .bind (h r hv hs₁) fun _ s₂ hs₂ => ?_
    exact .bind (ih hs₂) fun values s₃ hs₃ => .pure hs₃

theorem userCall_admits {c : Call} (span : Span) (hdistinct : ((definitions program).map (·.name)).Nodup)
    (hhead : Γ.lookup c.head = some .function) (harity : Defines program c.head c.args.length)
    (h : AdmitsEach program visible f g Γ c.args Γ₁) :
    Admits program visible Γ (Lower.userCall c.head span (c.args.map f)) (c.args.flatMap g) Γ₁ := by
  intro target known rest s hv hs
  obtain ⟨storage, hstorage, hrole⟩ := Option.map_eq_some_iff.mp ((hs.scope c.head).symm.trans hhead)
  obtain ⟨sig, hsig, hn⟩ := hs.context.signature? hdistinct (hs.functions _ hhead) harity
  have hfunction : s.scope.lookup? c.head = some .function := by
    cases storage with
    | slot r => cases hrole
    | function => exact hstorage
  refine .get_bind ?_
  rw [hfunction]
  dsimp only
  rw [hsig]
  dsimp only
  rw [if_pos (by rw [hn, List.length_map])]
  exact .bind (operands_ready h hv hs) fun values s₁ hs₁ => build_ready hs₁ _

end Lists
theorem choice_none_admits {test yes : Lowering} (h₁ : Admits program visible Γ test ds₁ Γ₁)
    (h₂ : Admits program visible Γ₁ yes ds₂ Γ₂) :
    Admits program visible Γ (Lower.choice test yes none) (ds₁ ++ ds₂) Γ₂ := by
  intro target known rest s hv hs
  rw [List.append_assoc] at hs
  rw [choice_none_eq]
  refine .bind (freshReg_ready hs) fun flag s₁ hs₁ => ?_
  refine .bind (h₁ flag hv hs₁) fun _ s₂ hs₂ => ?_
  refine .bind (freshLabel_ready hs₂) fun n s₃ hs₃ => ?_
  refine .bind (newBlock_ready hs₃ _) fun yesBlock s₄ hs₄ => ?_
  refine .bind (newBlock_ready hs₄ _) fun endBlock s₅ hs₅ => ?_
  refine .bind (currentBlock_ready hs₅) fun testExit s₆ hs₆ => ?_
  refine .bind (build_ready hs₆ _) fun _ s₇ hs₇ => ?_
  refine .bind (build_ready hs₇ _) fun _ s₈ hs₈ => ?_
  refine .bind (freshReg_ready hs₈) fun yesValue s₉ hs₉ => ?_
  refine .bind (h₂ yesValue hv hs₉) fun _ s₁₀ hs₁₀ => ?_
  refine .bind (currentBlock_ready hs₁₀) fun yesExit s₁₁ hs₁₁ => ?_
  refine .bind (build_ready hs₁₁ _) fun _ s₁₂ hs₁₂ => ?_
  exact .bind (build_ready hs₁₂ _) fun _ s₁₃ hs₁₃ => build_ready hs₁₃ _

theorem choice_some_admits {test yes no : Lowering} (h₁ : Admits program visible Γ test ds₁ Γ₁)
    (h₂ : Admits program visible Γ₁ yes ds₂ Γ₂) (h₃ : Admits program visible Γ₂ no ds₃ Γ₃) :
    Admits program visible Γ (Lower.choice test yes (some no)) (ds₁ ++ ds₂ ++ ds₃) Γ₃ := by
  intro target known rest s hv hs
  rw [List.append_assoc, List.append_assoc] at hs
  rw [choice_some_eq]
  refine .bind (freshReg_ready hs) fun flag s₁ hs₁ => ?_
  refine .bind (h₁ flag hv hs₁) fun _ s₂ hs₂ => ?_
  refine .bind (freshLabel_ready hs₂) fun n s₃ hs₃ => ?_
  refine .bind (newBlock_ready hs₃ _) fun yesBlock s₄ hs₄ => ?_
  refine .bind (newBlock_ready hs₄ _) fun noBlock s₅ hs₅ => ?_
  refine .bind (newBlock_ready hs₅ _) fun endBlock s₆ hs₆ => ?_
  refine .bind (currentBlock_ready hs₆) fun _ s₇ hs₇ => ?_
  refine .bind (build_ready hs₇ _) fun _ s₈ hs₈ => ?_
  refine .bind (build_ready hs₈ _) fun _ s₉ hs₉ => ?_
  refine .bind (freshReg_ready hs₉) fun yesValue s₁₀ hs₁₀ => ?_
  refine .bind (h₂ yesValue hv hs₁₀) fun _ s₁₁ hs₁₁ => ?_
  refine .bind (currentBlock_ready hs₁₁) fun yesExit s₁₂ hs₁₂ => ?_
  refine .bind (build_ready hs₁₂ _) fun _ s₁₃ hs₁₃ => ?_
  refine .bind (build_ready hs₁₃ _) fun _ s₁₄ hs₁₄ => ?_
  refine .bind (freshReg_ready hs₁₄) fun noValue s₁₅ hs₁₅ => ?_
  refine .bind (h₃ noValue hv hs₁₅) fun _ s₁₆ hs₁₆ => ?_
  refine .bind (currentBlock_ready hs₁₆) fun noExit s₁₇ hs₁₇ => ?_
  refine .bind (build_ready hs₁₇ _) fun _ s₁₈ hs₁₈ => ?_
  exact .bind (build_ready hs₁₈ _) fun _ s₁₉ hs₁₉ => build_ready hs₁₉ _

theorem write_admits {l₁ l₂ l₃ : Lowering} (h₁ : Admits program visible Γ l₁ ds₁ Γ₁)
    (h₂ : Admits program visible Γ₁ l₂ ds₂ Γ₂) (h₃ : Admits program visible Γ₂ l₃ ds₃ Γ₃) :
    Admits program visible Γ (Lower.write l₁ l₂ l₃) (ds₁ ++ ds₂ ++ ds₃) Γ₃ := by
  intro target known rest s hv hs
  rw [List.append_assoc, List.append_assoc] at hs
  refine .bind (freshReg_ready hs) fun fd s₁ hs₁ => ?_
  refine .bind (freshReg_ready hs₁) fun buffer s₂ hs₂ => ?_
  refine .bind (freshReg_ready hs₂) fun length s₃ hs₃ => ?_
  refine .bind (h₁ fd hv hs₃) fun _ s₄ hs₄ => ?_
  refine .bind (h₂ buffer hv hs₄) fun _ s₅ hs₅ => ?_
  refine .bind (h₃ length hv hs₅) fun _ s₆ hs₆ => ?_
  refine .bind (freshReg_ready hs₆) fun address s₇ hs₇ => ?_
  refine .bind (build_ready hs₇ _) fun _ s₈ hs₈ => ?_
  refine .get_bind ?_
  refine .bind (freshReg_ready hs₈) fun status s₉ hs₉ => ?_
  refine .bind (build_ready hs₉ _) fun _ s₁₀ hs₁₀ => ?_
  refine .bind (freshReg_ready hs₁₀) fun complete s₁₁ hs₁₁ => ?_
  refine .bind (build_ready hs₁₁ _) fun _ s₁₂ hs₁₂ => ?_
  refine .bind (freshLabel_ready hs₁₂) fun n s₁₃ hs₁₃ => ?_
  refine .bind (newBlock_ready hs₁₃ _) fun okBlock s₁₄ hs₁₄ => ?_
  refine .bind (newBlock_ready hs₁₄ _) fun failBlock s₁₅ hs₁₅ => ?_
  refine .bind (newBlock_ready hs₁₅ _) fun endBlock s₁₆ hs₁₆ => ?_
  refine .bind (build_ready hs₁₆ _) fun _ s₁₇ hs₁₇ => ?_
  refine .bind (build_ready hs₁₇ _) fun _ s₁₈ hs₁₈ => ?_
  refine .bind (build_ready hs₁₈ _) fun _ s₁₉ hs₁₉ => ?_
  refine .bind (build_ready hs₁₉ _) fun _ s₂₀ hs₂₀ => ?_
  refine .bind (build_ready hs₂₀ _) fun _ s₂₁ hs₂₁ => ?_
  exact .bind (build_ready hs₂₁ _) fun _ s₂₂ hs₂₂ => build_ready hs₂₂ _

end Combinators
end SmallLisp
