import SmallLisp.Proofs.Resolution

/-! # Well-formed programs

Rules for names and operands that say which programs there are, without a table of functions and without
code. A body is checked from left to right. At first its names are the functions that it can see and, above
them, its parameters; every definition that stands in it adds a name for what follows, also behind the
branch or the operands that the definition stands in, but for no other body.
-/
namespace SmallLisp

/-- Elements of a list lead from one point to another, each from where the one before it has led. -/
inductive InTurn {α β : Type} (step : α → β → α → Prop) : α → List β → α → Prop
  | nil (a : α) : InTurn step a [] a
  | cons {a b c : α} {x : β} {xs : List β} (h : step a x b) (hs : InTurn step b xs c) : InTurn step a (x :: xs) c

namespace InTurn
variable {α β : Type} {step other : α → β → α → Prop} {a b c : α} {x : β} {xs ys : List β}

theorem singleton (h : step a x b) : InTurn step a [x] b := .cons h (.nil b)

theorem of_singleton (h : InTurn step a [x] b) : step a x b := by
  cases h with
  | cons h hs =>
    cases hs
    exact h

theorem append (h : InTurn step a xs b) (hs : InTurn step b ys c) : InTurn step a (xs ++ ys) c := by
  induction h with
  | nil _ => exact hs
  | cons h _ ih => exact .cons h (ih hs)

theorem of_append (h : InTurn step a (xs ++ ys) c) : ∃ b, InTurn step a xs b ∧ InTurn step b ys c := by
  induction xs generalizing a with
  | nil => exact ⟨a, .nil a, h⟩
  | cons x xs ih =>
    cases h with
    | cons h hs =>
      obtain ⟨b, hxs, hys⟩ := ih hs
      exact ⟨b, .cons h hxs, hys⟩

theorem imp (h : InTurn step a xs b) (hstep : ∀ x ∈ xs, ∀ a b, step a x b → other a x b) :
    InTurn other a xs b := by
  induction h with
  | nil a => exact .nil a
  | cons h _ ih =>
    obtain ⟨hx, hxs⟩ := List.forall_mem_cons.mp hstep
    exact .cons (hx _ _ h) (ih hxs)

end InTurn

/-! ## Rules -/

inductive Role where
  | variable
  | function
deriving DecidableEq

abbrev Names := List (String × Role)

/-- An expression that is right where the names `Γ` are known, and the names known after it. -/
inductive Checks (program : List Expr) : Names → Expr → Names → Prop
  | int (v : Int64) (s : Span) (Γ : Names) : Checks program Γ (.int v s) Γ
  | name {Γ : Names} {x : String} (hx : Γ.lookup x = some .variable) (s : Span) : Checks program Γ (.name x s) Γ
  | define (d : Definition) (s : Span) (Γ : Names) : Checks program Γ (.define d s) ((d.name, .function) :: Γ)
  | arith {Γ Γ' : Names} {c : Call} {op : ArithOp} (hop : Builtin.ofHead? c.head = some (.arith op))
      (hargs : c.args ≠ []) (h : InTurn (Checks program) Γ c.args Γ') (s : Span) : Checks program Γ (.call c s) Γ'
  | compare {Γ Γ' : Names} {c : Call} {op : CompareOp} (hop : Builtin.ofHead? c.head = some (.compare op))
      (hargs : c.args.length = 2) (h : InTurn (Checks program) Γ c.args Γ') (s : Span) :
    Checks program Γ (.call c s) Γ'
  | write {Γ Γ' : Names} {c : Call} {fd e length : Expr} {sr : Span} (hop : Builtin.ofHead? c.head = some .sysWrite)
      (hargs : c.args = [fd, .ref e sr, length]) (h : InTurn (Checks program) Γ [fd, e, length] Γ') (s : Span) :
    Checks program Γ (.call c s) Γ'
  | user {Γ Γ' : Names} {c : Call} (hop : Builtin.ofHead? c.head = none) (hhead : Γ.lookup c.head = some .function)
      (harity : Defines program c.head c.args.length) (h : InTurn (Checks program) Γ c.args Γ') (s : Span) :
    Checks program Γ (.call c s) Γ'
  | branch {Γ Γ' : Names} {t : Call} {yes : Expr} {no : Option Expr} {op : CompareOp}
      (hop : Builtin.ofHead? t.head = some (.compare op)) (hargs : t.args.length = 2)
      (h : InTurn (Checks program) Γ (t.args ++ yes :: no.toList) Γ') (s : Span) :
    Checks program Γ (.branch t yes no s) Γ'

def Site.names (site : Site) : Names :=
  site.definition.params.reverse.map (·, .variable) ++ site.visible.map (·, .function)

def Site.Checked (program : List Expr) (site : Site) : Prop :=
  site.definition.body ≠ [] ∧ ∃ Γ, InTurn (Checks program) site.names site.definition.body Γ

structure WellFormed (program : List Expr) : Prop where
  forms : ∀ e ∈ program, ∃ d s, e = .define d s
  distinct : ((definitions program).map (·.name)).Nodup
  bodies : ∀ site ∈ programSites program, site.Checked program

/-! ## Names in scopes -/

def Storage.role : Storage → Role
  | .slot _ => .variable
  | .function => .function

def Names.Describes (Γ : Names) (σ : Scope Storage) : Prop := ∀ x, Γ.lookup x = (σ.lookup? x).map Storage.role

theorem Names.lookup_functions (visible : List String) (x : String) :
    (visible.map (·, Role.function)).lookup x = if x ∈ visible then some .function else none := by
  induction visible with
  | nil => rfl
  | cons y ys ih =>
    rw [List.map_cons, Scope.lookup_cons_eq_ite, ih]
    by_cases hxy : y = x
    · simp [hxy]
    · simp [hxy, Ne.symm hxy]

namespace Names.Describes
variable {Γ : Names} {σ : Scope Storage}

theorem define (h : Γ.Describes σ) (x : String) (storage : Storage) :
    Names.Describes ((x, storage.role) :: Γ) (σ.define x storage) := by
  intro y
  by_cases hy : y = x
  · simp [hy]
  · rw [Scope.lookup_cons_eq_ite, if_neg (Ne.symm hy), Scope.lookup?_define_ne _ _ hy]
    exact h y

theorem parameters (h : Γ.Describes σ) (first : Nat) (params : List String) :
    Names.Describes (params.reverse.map (·, .variable) ++ Γ) (parameterScope σ first params) := by
  induction params generalizing σ Γ first with
  | nil => exact h
  | cons x xs ih =>
    have hxs := ih (h.define x (.slot ⟨first⟩)) (first + 1)
    simpa [parameterScope, Storage.role] using hxs

theorem of_onlyFunctions {visible : List String} (h : OnlyFunctions σ visible) :
    Names.Describes (visible.map (·, .function)) σ := by
  intro x
  rw [lookup_functions, h x]
  split <;> rfl

theorem variable_of_slot (h : Γ.Describes σ) {x : String} {r : IR.Reg} (hx : σ.lookup? x = some (.slot r)) :
    Γ.lookup x = some .variable := by
  rw [h x, hx]
  rfl

theorem function_of_function (h : Γ.Describes σ) {x : String} (hx : σ.lookup? x = some .function) :
    Γ.lookup x = some .function := by
  rw [h x, hx]
  rfl

end Names.Describes

theorem OnlyFunctions.site_names {root : Scope Storage} {site : Site} (h : OnlyFunctions root site.visible) :
    site.names.Describes (parameterScope root.push 1 site.definition.params) :=
  (Names.Describes.of_onlyFunctions h.push).parameters 1 site.definition.params

/-! ## Compiled programs are well-formed -/

section Compiled
variable {program : List Expr} {placed : Bool → Definition → Prop} {b : Bool} {es : List Expr}
  {σ σ' : Scope Storage}

/-- Where names are resolved, the rules are kept. -/
theorem Resolved.checks (h : Resolved (Defines program) placed b σ es σ') {Γ : Names} (hΓ : Γ.Describes σ) :
    ∃ Γ', InTurn (Checks program) Γ es Γ' ∧ Γ'.Describes σ' := by
  induction h generalizing Γ with
  | nil => exact ⟨Γ, .nil Γ, hΓ⟩
  | cons _ _ ih₁ ih₂ =>
    obtain ⟨Γ₁, h₁, hΓ₁⟩ := ih₁ hΓ
    obtain ⟨Γ₂, h₂, hΓ₂⟩ := ih₂ hΓ₁
    exact ⟨Γ₂, h₁.append h₂, hΓ₂⟩
  | int _ _ v s => exact ⟨Γ, .singleton (.int v s Γ), hΓ⟩
  | name _ hx s => exact ⟨Γ, .singleton (.name (hΓ.variable_of_slot hx) s), hΓ⟩
  | @define _ _ d _ s => exact ⟨_, .singleton (.define d s Γ), hΓ.define d.name .function⟩
  | arith hop hargs s _ ih =>
    obtain ⟨Γ', h, hΓ'⟩ := ih hΓ
    exact ⟨Γ', .singleton (.arith hop hargs h s), hΓ'⟩
  | compare hop hargs s _ ih =>
    obtain ⟨Γ', h, hΓ'⟩ := ih hΓ
    rw [← hargs] at h
    exact ⟨Γ', .singleton (.compare hop (by rw [hargs]; rfl) h s), hΓ'⟩
  | write hop hargs s _ ih =>
    obtain ⟨Γ', h, hΓ'⟩ := ih hΓ
    exact ⟨Γ', .singleton (.write hop hargs h s), hΓ'⟩
  | user hop hσ hknown s _ ih =>
    obtain ⟨Γ', h, hΓ'⟩ := ih hΓ
    exact ⟨Γ', .singleton (.user hop (hΓ.function_of_function hσ) hknown h s), hΓ'⟩
  | branch hop hargs s _ _ _ ih₁ ih₂ ih₃ =>
    obtain ⟨Γ₁, h₁, hΓ₁⟩ := ih₁ hΓ
    obtain ⟨Γ₂, h₂, hΓ₂⟩ := ih₂ hΓ₁
    obtain ⟨Γ₃, h₃, hΓ₃⟩ := ih₃ hΓ₂
    rw [← hargs] at h₁
    exact ⟨Γ₃, .singleton (.branch hop (by rw [hargs]; rfl) (h₁.append (h₂.append h₃)) s), hΓ₃⟩

/-- A program that is compiled keeps the rules. -/
theorem CompiledProgram.wellFormed {abi : IR.Abi} {m : IR.Module} (h : CompiledProgram abi program m) :
    WellFormed program := by
  refine ⟨h.forms, h.distinct, fun site hsite => ?_⟩
  obtain ⟨hne, root, σ, hroot, hbody⟩ := h.body_resolved hsite
  obtain ⟨Γ, hΓ, -⟩ := hbody.checks hroot.site_names
  exact ⟨hne, Γ, hΓ⟩

end Compiled
end SmallLisp
