import SmallLisp.Proofs.CompiledChecks
import SmallLisp.Proofs.SplitTree

/-! # Resolved names

In a compiled program every name is resolved where it stands: a variable to a slot, the head of a call to
a function. This is said of expressions alone, without the code they have, and it is all that comparing
the compiler with the interpreter needs. A definition in a branch of a conditional is told apart, as the
compiler resolves its name also where the branch is not taken.
-/
namespace SmallLisp

/-! ## Definitions outside other bodies -/

mutual

/-- The definitions that stand in an expression, not in the body of another definition, each with whether
it is in a branch of a conditional. -/
def Expr.own (inBranch : Bool) : Expr → List (Definition × Bool)
  | .int .. | .name .. => []
  | .ref target _ => target.own inBranch
  | .call ⟨_, args, _⟩ _ => ownEach inBranch args
  | .define d _ => [(d, inBranch)]
  | .branch ⟨_, args, _⟩ yes no _ => ownEach inBranch args ++ yes.own true ++
    match no with
    | some e => e.own true
    | none => []

def ownEach (inBranch : Bool) : List Expr → List (Definition × Bool)
  | [] => []
  | e :: es => e.own inBranch ++ ownEach inBranch es

end

theorem Expr.own_call (inBranch : Bool) (c : Call) (span : Span) :
    (Expr.call c span).own inBranch = ownEach inBranch c.args := by
  cases c
  simp only [Expr.own]

theorem Expr.own_branch (inBranch : Bool) (test : Call) (yes : Expr) (no : Option Expr) (span : Span) :
    (Expr.branch test yes no span).own inBranch =
      ownEach inBranch test.args ++ yes.own true ++ ownEach true no.toList := by
  cases test
  cases no <;> simp only [Expr.own, Option.toList_none, Option.toList_some, ownEach, List.append_nil]

section Lists
variable (inBranch : Bool) (e : Expr) (es fs : List Expr)

theorem ownEach_nil : ownEach inBranch [] = [] := by
  simp only [ownEach]

theorem ownEach_cons : ownEach inBranch (e :: es) = e.own inBranch ++ ownEach inBranch es := by
  simp only [ownEach]

theorem ownEach_singleton : ownEach inBranch [e] = e.own inBranch := by
  rw [ownEach_cons, ownEach_nil, List.append_nil]

theorem ownEach_append : ownEach inBranch (es ++ fs) = ownEach inBranch es ++ ownEach inBranch fs := by
  induction es with
  | nil => rw [ownEach_nil, List.nil_append, List.nil_append]
  | cons e es ih => rw [List.cons_append, ownEach_cons, ownEach_cons, ih, List.append_assoc]

end Lists

theorem mem_ownEach {inBranch : Bool} {es : List Expr} {x : Definition × Bool} :
    x ∈ ownEach inBranch es ↔ ∃ e ∈ es, x ∈ e.own inBranch := by
  induction es with
  | nil => simp [ownEach]
  | cons e es ih => simp [ownEach, ih]

/-- A definition that stands in an expression sees itself besides what the expression sees. -/
theorem Expr.mem_sites_of_own (visible : List String) (e : Expr) : ∀ {inBranch : Bool} {x : Definition × Bool},
    x ∈ e.own inBranch → ⟨x.1, x.1.name :: visible⟩ ∈ e.sites visible := by
  induction e using Expr.induction with
  | int _ _ | name _ _ =>
    intro _ _ hx
    cases hx
  | ref e _ ih =>
    intro _ _ hx
    exact ih hx
  | call c s ih =>
    intro _ x hx
    rw [Expr.own_call, mem_ownEach] at hx
    obtain ⟨e, he, hx⟩ := hx
    rw [Expr.sites_call]
    exact mem_sitesEach.mpr ⟨e, he, ih e he hx⟩
  | define d s _ =>
    intro b x hx
    cases List.mem_singleton.mp (show x ∈ [(d, b)] from hx)
    rw [Expr.sites, Definition.sites_eq]
    exact List.mem_append_right _ List.mem_cons_self
  | branch t y n s iht ihy ihn =>
    intro _ x hx
    rw [Expr.own_branch, List.mem_append, List.mem_append, mem_ownEach, mem_ownEach] at hx
    rw [Expr.sites_branch, List.mem_append, List.mem_append, mem_sitesEach, mem_sitesEach]
    rcases hx with (⟨e, he, hx⟩ | hx) | ⟨e, he, hx⟩
    · exact .inl (.inl ⟨e, he, iht e he hx⟩)
    · exact .inl (.inr (ihy hx))
    · exact .inr ⟨e, he, ihn e (Option.mem_toList.mp he) hx⟩

/-! ## Resolved expressions -/

section Expressions
variable (known : String → Nat → Prop) (placed : Bool → Definition → Prop)

/-- Expressions in order that are compiled in a scope, and the scope after them. What is said of the
definitions that stand in them depends on whether they are in a branch. -/
inductive Resolved : Bool → Scope Storage → List Expr → Scope Storage → Prop
  | nil (b : Bool) (σ : Scope Storage) : Resolved b σ [] σ
  | cons {b : Bool} {σ σ₁ σ₂ : Scope Storage} {e : Expr} {es : List Expr} (h₁ : Resolved b σ [e] σ₁)
      (h₂ : Resolved b σ₁ es σ₂) : Resolved b σ (e :: es) σ₂
  | int (b : Bool) (σ : Scope Storage) (v : Int64) (s : Span) : Resolved b σ [.int v s] σ
  | name (b : Bool) {σ : Scope Storage} {x : String} {r : IR.Reg} (hx : σ.lookup? x = some (.slot r))
      (s : Span) : Resolved b σ [.name x s] σ
  | define {b : Bool} (σ : Scope Storage) {d : Definition} (hd : placed b d) (s : Span) :
    Resolved b σ [.define d s] (σ.define d.name .function)
  | arith {b : Bool} {σ σ' : Scope Storage} {c : Call} {op : ArithOp}
      (hop : Builtin.ofHead? c.head = some (.arith op)) (hargs : c.args ≠ []) (s : Span)
      (h : Resolved b σ c.args σ') : Resolved b σ [.call c s] σ'
  | compare {b : Bool} {σ σ' : Scope Storage} {c : Call} {op : CompareOp} {x y : Expr}
      (hop : Builtin.ofHead? c.head = some (.compare op)) (hargs : c.args = [x, y]) (s : Span)
      (h : Resolved b σ [x, y] σ') : Resolved b σ [.call c s] σ'
  | write {b : Bool} {σ σ' : Scope Storage} {c : Call} {fd e length : Expr} {sr : Span}
      (hop : Builtin.ofHead? c.head = some .sysWrite) (hargs : c.args = [fd, .ref e sr, length]) (s : Span)
      (h : Resolved b σ [fd, e, length] σ') : Resolved b σ [.call c s] σ'
  | user {b : Bool} {σ σ' : Scope Storage} {c : Call} (hop : Builtin.ofHead? c.head = none)
      (hσ : σ.lookup? c.head = some .function) (hknown : known c.head c.args.length) (s : Span)
      (h : Resolved b σ c.args σ') : Resolved b σ [.call c s] σ'
  | branch {b : Bool} {σ σ₁ σ₂ σ₃ : Scope Storage} {t : Call} {x y yes : Expr} {no : Option Expr}
      {op : CompareOp} (hop : Builtin.ofHead? t.head = some (.compare op)) (hargs : t.args = [x, y]) (s : Span)
      (h₁ : Resolved b σ [x, y] σ₁) (h₂ : Resolved true σ₁ [yes] σ₂)
      (h₃ : Resolved true σ₂ no.toList σ₃) :
    Resolved b σ [.branch t yes no s] σ₃

variable {known placed} {b : Bool} {σ σ₁ σ₂ σ' : Scope Storage} {e : Expr} {es fs : List Expr}

namespace Resolved

theorem uncons (h : Resolved known placed b σ (e :: es) σ') :
    ∃ σ₁, Resolved known placed b σ [e] σ₁ ∧ Resolved known placed b σ₁ es σ' := by
  cases es with
  | nil => exact ⟨σ', h, .nil b σ'⟩
  | cons f fs =>
    cases h with
    | cons h₁ h₂ => exact ⟨_, h₁, h₂⟩

theorem append (h₁ : Resolved known placed b σ es σ₁) (h₂ : Resolved known placed b σ₁ fs σ₂) :
    Resolved known placed b σ (es ++ fs) σ₂ := by
  induction es generalizing σ with
  | nil =>
    cases h₁
    exact h₂
  | cons e es ih =>
    obtain ⟨σ', he, hes⟩ := h₁.uncons
    exact .cons he (ih hes)

/-- A scope only gains functions. -/
theorem slot_of_slot (h : Resolved known placed b σ es σ') {x : String} {r : IR.Reg}
    (hx : σ'.lookup? x = some (.slot r)) : σ.lookup? x = some (.slot r) := by
  induction h with
  | nil | int | name => exact hx
  | @define _ σ d hd s =>
    by_cases hn : x = d.name
    · rw [hn, Scope.lookup?_define_self] at hx
      cases hx
    · rwa [Scope.lookup?_define_ne _ _ hn] at hx
  | arith _ _ _ _ ih | compare _ _ _ _ ih | write _ _ _ _ ih | user _ _ _ _ _ ih => exact ih hx
  | cons _ _ ih₁ ih₂ => exact ih₁ (ih₂ hx)
  | branch _ _ _ _ _ _ ih₁ ih₂ ih₃ => exact ih₁ (ih₂ (ih₃ hx))

/-- A function that a branch adds to a scope is defined in it. -/
theorem function_of_branch (h : Resolved known placed true σ es σ') {x : String}
    (hx : σ'.lookup? x = some .function) :
    σ.lookup? x = some .function ∨ ∃ d, placed true d ∧ d.name = x := by
  generalize hb : true = b at h
  induction h with
  | nil | int | name => exact .inl hx
  | @define b σ d hd s =>
    subst hb
    by_cases hn : x = d.name
    · exact .inr ⟨d, hd, hn.symm⟩
    · rw [Scope.lookup?_define_ne _ _ hn] at hx
      exact .inl hx
  | arith _ _ _ _ ih | compare _ _ _ _ ih | write _ _ _ _ ih | user _ _ _ _ _ ih => exact ih hx hb
  | cons _ _ ih₁ ih₂ => exact (ih₂ hx hb).elim (fun hx => ih₁ hx hb) .inr
  | branch _ _ _ _ _ _ ih₁ ih₂ ih₃ =>
    subst hb
    rcases ih₃ hx rfl with hx | hd
    · rcases ih₂ hx rfl with hx | hd
      · exact ih₁ hx rfl
      · exact .inr hd
    · exact .inr hd

end Resolved

def Piece.exprs : Piece → List Expr
  | .expr e _ | .spill e _ => [e]
  | .tree t _ => t.leaves
  | .test _ x y _ => [x, y]
  | .operands es _ | .body es _ => es

/-- What code is emitted for is resolved. -/
theorem Emits.resolved {abi : IR.Abi} {piece : Piece} {p p' : Point} {code : IR.Code}
    (h : Emits abi known piece σ p code σ' p') (b : Bool)
    (hplaced : ∀ x ∈ ownEach b piece.exprs, placed x.2 x.1) :
    Resolved known placed b σ piece.exprs σ' := by
  induction h generalizing b with
  | int v s r σ p => exact .int b σ v s
  | name hx s r p => exact .name b hx s
  | define d s r σ p => exact .define σ (hplaced (d, b) List.mem_cons_self) s
  | arith hop ht h ih =>
    have hleaves := Split.leaves_of_ofList? ht
    simp only [Piece.exprs, ownEach_singleton, Expr.own_call, hleaves] at hplaced ih
    refine .arith hop ?_ _ (ih b hplaced)
    intro hnil
    rw [hnil, Split.ofList?] at ht
    cases ht
  | compare hop hargs h ih =>
    simp only [Piece.exprs, ownEach_singleton, Expr.own_call, hargs] at hplaced ih
    exact .compare hop hargs _ (ih b hplaced)
  | write hop hargs h₁ h₂ h₃ ih₁ ih₂ ih₃ =>
    simp only [Piece.exprs, Expr.own_call, hargs, ownEach_cons, Expr.own, ownEach_nil, List.append_nil,
      List.forall_mem_append] at hplaced ih₁ ih₂ ih₃
    obtain ⟨hp₁, hp₂, hp₃⟩ := hplaced
    exact .write hop hargs _ (.cons (ih₁ b hp₁) (.cons (ih₂ b hp₂) (ih₃ b hp₃)))
  | user hop hσ hknown h ih =>
    simp only [Piece.exprs, ownEach_singleton, Expr.own_call] at hplaced ih
    exact .user hop hσ hknown _ (ih b hplaced)
  | branch hop hargs h₁ h₂ ih₁ ih₂ =>
    simp only [Piece.exprs, ownEach_singleton, Expr.own_branch, hargs, Option.toList_none, ownEach_nil,
      List.append_nil, List.forall_mem_append] at hplaced ih₁ ih₂
    obtain ⟨hp₁, hp₂⟩ := hplaced
    exact .branch hop hargs _ (ih₁ b hp₁) (ih₂ true hp₂) (.nil _ _)
  | branchElse hop hargs h₁ h₂ h₃ ih₁ ih₂ ih₃ =>
    simp only [Piece.exprs, ownEach_singleton, Expr.own_branch, hargs, Option.toList_some,
      List.forall_mem_append] at hplaced ih₁ ih₂ ih₃
    obtain ⟨⟨hp₁, hp₂⟩, hp₃⟩ := hplaced
    exact .branch hop hargs _ (ih₁ b hp₁) (ih₂ true hp₂) (ih₃ true hp₃)
  | spill h ih | leaf h ih | result h ih => exact ih b hplaced
  | node h₁ h₂ ih₁ ih₂ =>
    simp only [Piece.exprs, Split.leaves, ownEach_append, List.forall_mem_append] at hplaced ih₁ ih₂
    exact (ih₁ b hplaced.1).append (ih₂ b hplaced.2)
  | test h₁ h₂ ih₁ ih₂ | operand h₁ h₂ ih₁ ih₂ | more hes h₁ h₂ ih₁ ih₂ =>
    simp only [Piece.exprs, ownEach_cons, ownEach_nil, List.append_nil, List.forall_mem_append] at hplaced ih₁ ih₂
    exact .cons (ih₁ b hplaced.1) (ih₂ b hplaced.2)
  | noOperands σ p => exact .nil b σ

theorem Emits.body_ne_nil {abi : IR.Abi} {r : IR.Reg} {p p' : Point} {code : IR.Code}
    (h : Emits abi known (.body es r) σ p code σ' p') : es ≠ [] := by
  cases h <;> exact List.cons_ne_nil _ _

end Expressions

/-! ## Bodies of a compiled program -/

def DefinedInBranch (program : List Expr) (x : String) : Prop :=
  ∃ f ∈ definitions program, ∃ d, (d, true) ∈ ownEach false f.body ∧ d.name = x

structure Placed (program : List Expr) (visible : List String) (inBranch : Bool) (d : Definition) : Prop where
  site : ⟨d, d.name :: visible⟩ ∈ programSites program
  nested : d.name ∉ (topDefinitions program).map (·.name)
  inBranch : inBranch = true → DefinedInBranch program d.name

theorem Placed.isMain_eq_false {program : List Expr} {visible : List String} {b : Bool} {d : Definition}
    (hd : Placed program visible b d) (hmain : "main" ∈ (topDefinitions program).map (·.name)) :
    d.isMain = false := by
  rw [Definition.isMain, beq_eq_false_iff_ne]
  intro he
  exact hd.nested (he ▸ hmain)

/-- The definitions in the body of a definition are among those around it. -/
theorem Expr.mem_sites_of_body (e : Expr) : ∀ {visible : List String} {site inner : Site},
    site ∈ e.sites visible → inner ∈ sitesEach site.visible site.definition.body →
      inner ∈ e.sites visible := by
  induction e using Expr.induction with
  | int _ _ | name _ _ =>
    intro _ _ _ hs
    cases hs
  | ref e _ ih =>
    intro _ _ _ hs hi
    exact ih hs hi
  | call c _ ih =>
    intro _ _ _ hs hi
    rw [Expr.sites_call, mem_sitesEach] at hs ⊢
    obtain ⟨e, he, hs⟩ := hs
    exact ⟨e, he, ih e he hs hi⟩
  | define d _ ih =>
    intro _ _ _ hs hi
    rw [Expr.sites, Definition.sites_eq, List.mem_append, List.mem_singleton, mem_sitesEach] at hs ⊢
    rcases hs with ⟨e, he, hs⟩ | rfl
    · exact .inl ⟨e, he, ih e he hs hi⟩
    · exact .inl (mem_sitesEach.mp hi)
  | branch t y n _ iht ihy ihn =>
    intro _ _ _ hs hi
    rw [Expr.sites_branch, List.mem_append, List.mem_append, mem_sitesEach, mem_sitesEach] at hs ⊢
    rcases hs with (⟨e, he, hs⟩ | hs) | ⟨e, he, hs⟩
    · exact .inl (.inl ⟨e, he, iht e he hs hi⟩)
    · exact .inl (.inr (ihy hs hi))
    · exact .inr ⟨e, he, ihn e (Option.mem_toList.mp he) hs hi⟩

/-- A definition in the body of another stands in the body of one at the top. -/
theorem exists_top_of_body {program : List Expr} {site inner : Site} (hs : site ∈ programSites program)
    (hi : inner ∈ sitesEach site.visible site.definition.body) : ∃ top ∈ topDefinitions program,
      inner ∈ sitesEach ((topDefinitions program).map (·.name)) top.body := by
  obtain ⟨top, htop, hs⟩ := List.mem_flatMap.mp hs
  refine ⟨top, htop, ?_⟩
  rw [Definition.sites_eq, List.mem_append, List.mem_singleton] at hs
  rcases hs with hs | rfl
  · obtain ⟨e, he, hs⟩ := mem_sitesEach.mp hs
    exact mem_sitesEach.mpr ⟨e, he, e.mem_sites_of_body hs hi⟩
  · exact hi

section Programs
variable {abi : IR.Abi} {program : List Expr} {m : IR.Module}

/-- The definitions at the top and those in their bodies all have names of their own. -/
theorem CompiledProgram.nodup_names (h : CompiledProgram abi program m) :
    ((topDefinitions program).map (·.name) ++ ((topDefinitions program).flatMap fun d =>
      (sitesEach ((topDefinitions program).map (·.name)) d.body).map (·.definition)).map (·.name)).Nodup := by
  have hn := h.distinct
  rw [definitions_eq_programSites h.forms] at hn
  have hperm := (perm_flatMap_sites (topDefinitions program) ((topDefinitions program).map (·.name))).map (·.name)
  rw [List.map_append] at hperm
  exact hperm.nodup_iff.mpr hn

/-- No definition in a body has the name of one at the top. -/
theorem CompiledProgram.nested_name (h : CompiledProgram abi program m) {top : Definition} {inner : Site}
    (htop : top ∈ topDefinitions program)
    (hi : inner ∈ sitesEach ((topDefinitions program).map (·.name)) top.body) :
    inner.definition.name ∉ (topDefinitions program).map (·.name) := by
  intro hm
  refine (List.nodup_append.mp (h.nodup_names)).2.2 _ hm _ (List.mem_map_of_mem ?_) rfl
  exact List.mem_flatMap.mpr ⟨top, htop, List.mem_map_of_mem hi⟩

/-- In a compiled program every body is resolved. -/
theorem CompiledProgram.body_resolved (h : CompiledProgram abi program m) {site : Site}
    (hs : site ∈ programSites program) : site.definition.body ≠ [] ∧
      ∃ root σ, OnlyFunctions root site.visible ∧ Resolved (Defines program) (Placed program site.visible) false
        (parameterScope root.push 1 site.definition.params) site.definition.body σ := by
  obtain ⟨f, -, hc⟩ := h.exists_function hs
  obtain ⟨root, code, σ, p, hroot, hem, -⟩ := hc.body
  refine ⟨hem.body_ne_nil, root, σ, hroot, hem.resolved false ?_⟩
  intro x hx
  obtain ⟨e, he, hx'⟩ := mem_ownEach.mp hx
  have hi := mem_sitesEach.mpr ⟨e, he, e.mem_sites_of_own site.visible hx'⟩
  obtain ⟨top, htop, hi⟩ := exists_top_of_body hs hi
  refine ⟨?_, h.nested_name htop hi, ?_⟩
  · refine List.mem_flatMap.mpr ⟨top, htop, ?_⟩
    rw [Definition.sites_eq]
    exact List.mem_append_left _ hi
  · intro hb
    refine ⟨site.definition, ?_, x.1, ?_, rfl⟩
    · rw [definitions_eq_programSites h.forms]
      exact List.mem_map_of_mem hs
    · rw [← hb]
      exact hx

end Programs
end SmallLisp
