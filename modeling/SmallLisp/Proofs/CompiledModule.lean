import SmallLisp.Proofs.LoweringSyntax
import Mathlib.Data.List.Nodup

/-! # What a compiled module consists of

A compiled module has one function for each definition of the program, in the order in which the
definitions end, and each consists of the code of its definition. The function table has exactly the
definitions of the program, under distinct names, so a call in the code is of a definition with that
number of parameters. If compilation fails then the program is to blame.
-/
namespace SmallLisp

def Expr.definition? : Expr → Option Definition
  | .define d _ => some d
  | _ => none

def topDefinitions (program : List Expr) : List Definition := program.filterMap Expr.definition?

/-- All definitions of a program as a module sees them, where every body can see the top level. -/
def programSites (program : List Expr) : List Site :=
  (topDefinitions program).flatMap (·.sites ((topDefinitions program).map (·.name)))

def Defines (program : List Expr) (name : String) (arity : Nat) : Prop :=
  ∃ d ∈ definitions program, d.name = name ∧ d.arity = arity

structure CompiledProgram (abi : IR.Abi) (program : List Expr) (m : IR.Module) : Prop where
  forms : ∀ e ∈ program, ∃ d s, e = .define d s
  distinct : ((definitions program).map (·.name)).Nodup
  functions : List.Forall₂ (Compiled abi (Defines program)) (programSites program) m.functions

section Programs
variable {hollow : Prop}

/-- Declaring a program whose forms are all definitions. -/
theorem declareFrom_yields (program : List Expr) {root : Scope Storage} {visible : List String}
    (hroot : OnlyFunctions root visible) (cx : Context) :
    Yields hollow (declareFrom root program) cx fun result cx' =>
      (∀ e ∈ program, ∃ d s, e = .define d s) ∧ result.2 = topDefinitions program ∧
      OnlyFunctions result.1 ((topDefinitions program).reverse.map (·.name) ++ visible) ∧
      cx.Grows cx' (topDefinitions program) [] := by
  induction program generalizing root visible cx with
  | nil => exact .pure ⟨by simp, rfl, hroot, .refl cx⟩
  | cons e es ih =>
    rw [declareFrom.eq_def]
    cases e with
    | define d s =>
      refine .bind (declare_yields d cx) fun _ cx₁ hg₁ => ?_
      refine .bind (ih (hroot.define d.name) cx₁) ?_
      rintro ⟨root₂, ds⟩ cx₂ ⟨hforms, rfl, hroot₂, hg₂⟩
      refine .pure ⟨?_, rfl, ?_, hg₁.trans hg₂⟩
      · exact List.forall_mem_cons.mpr ⟨⟨d, s, rfl⟩, hforms⟩
      · have hnames : (topDefinitions (.define d s :: es)).reverse.map (·.name) ++ visible =
            (topDefinitions es).reverse.map (·.name) ++ d.name :: visible := by
          simp [topDefinitions, Expr.definition?]
        rwa [hnames]
    | int _ _ | name _ _ | ref _ _ | call _ _ | branch _ _ _ _ =>
      refine .fail ?_
      exact trivial

/-- Compiling definitions one after the other, where exactly the names listed are visible. -/
theorem definitions_yields (ds : List Definition) {root : Scope Storage} {visible : List String}
    (hroot : OnlyFunctions root visible) (h : BodiesGiven hollow (ds.flatMap (·.sites visible)))
    (cx : Context) : Yields hollow (ds.forM (·.lower root)) cx fun _ cx' =>
      cx.Grows cx' (ds.flatMap fun d => (sitesEach visible d.body).map (·.definition))
        (ds.flatMap (·.sites visible)) := by
  induction ds generalizing cx with
  | nil => exact .pure (.refl cx)
  | cons d ds ih =>
    rw [List.flatMap_cons, Definition.sites_eq] at h
    obtain ⟨hd, hds⟩ := List.forall_mem_append.mp h
    obtain ⟨hbody, hself⟩ := List.forall_mem_append.mp hd
    have hlow := Lowerable.each (fun e _ => e.lowerable) hroot hbody
    refine .bind (definition_yields hroot (hself _ List.mem_cons_self) hlow cx) fun _ cx₁ hg₁ => ?_
    exact (ih hds cx₁).mono fun _ cx₂ hg₂ => hg₁.trans hg₂

/-- The definitions in bodies and those that have the bodies are all definitions. -/
theorem perm_flatMap_sites (ds : List Definition) (visible : List String) :
    (ds ++ ds.flatMap fun d => (sitesEach visible d.body).map (·.definition)).Perm
      ((ds.flatMap (·.sites visible)).map (·.definition)) := by
  induction ds with
  | nil => exact .refl _
  | cons d ds ih =>
    rw [List.flatMap_cons, List.flatMap_cons, List.map_append, Definition.sites_eq, List.map_append,
      List.append_assoc, List.cons_append]
    refine (List.Perm.cons d (List.perm_append_comm_assoc _ _ _)).trans ?_
    exact List.perm_middle.symm.trans ((ih.cons d).append_left _)

theorem definitions_eq_programSites {program : List Expr} (h : ∀ e ∈ program, ∃ d s, e = .define d s) :
    definitions program = (programSites program).map (·.definition) := by
  unfold programSites
  generalize (topDefinitions program).map (·.name) = visible
  unfold definitions
  induction program with
  | nil => rfl
  | cons e es ih =>
    obtain ⟨⟨d, s, rfl⟩, hes⟩ := List.forall_mem_cons.mp h
    have htop : topDefinitions (.define d s :: es) = d :: topDefinitions es := rfl
    rw [htop, List.flatMap_cons, List.map_append, ← ih hes, sitesEach, List.map_append]
    exact congrArg (· ++ _) (d.map_definition_sites _ visible)

theorem onlyFunctions_empty : OnlyFunctions (.empty : Scope Storage) [] := fun _ => rfl

def compileSteps (program : List Expr) : ContextM Unit :=
  declareProgram program >>= fun declared => declared.2.forM (·.lower declared.1)

theorem compile_eq (abi : IR.Abi) (name : String) (program : List Expr) :
    compile abi name program =
      match compileSteps program (.new name abi) with
      | .ok _ cx => .ok cx.module
      | .error e _ => .error e := rfl

/-- A result that is known to have a property is a result. -/
theorem exists_of_map_toOption {ε α β : Type} {x : Except ε α} {f : α → β} {b : β}
    (h : x.toOption.map f = some b) : ∃ a, x = .ok a ∧ f a = b := by
  cases x with
  | ok a => exact ⟨a, rfl, Option.some.inj h⟩
  | error e => cases h

/-- The steps make a module of the definitions, under the name that it was given. -/
theorem compileSteps_yields (abi : IR.Abi) (name : String) (program : List Expr)
    (h : ∀ d ∈ definitions program, d.body = [] → hollow) :
    Yields hollow (compileSteps program) (.new name abi) fun _ cx =>
      CompiledProgram abi program cx.module ∧ cx.module.name = name := by
  refine .bind (declareFrom_yields program onlyFunctions_empty _) ?_
  rintro ⟨root, ds⟩ cx₁ ⟨hforms, rfl, hroot, hg₁⟩
  have hdefs := definitions_eq_programSites hforms
  have hroot' : OnlyFunctions root ((topDefinitions program).map (·.name)) := by
    intro x
    simpa using hroot x
  have hgiven : BodiesGiven hollow (programSites program) := by
    intro site hsite
    exact h site.definition (hdefs ▸ List.mem_map_of_mem hsite)
  refine (definitions_yields _ hroot' hgiven cx₁).mono fun _ cx₂ hg₂ => ?_
  have hg := (hg₁.trans hg₂).perm (perm_flatMap_sites _ _)
  change Context.Grows _ cx₂ ((programSites program).map (·.definition)) (programSites program) at hg
  rw [← hdefs] at hg
  have hsigs : cx₂.signatures.Perm ((definitions program).map Definition.entry) := by
    simpa [Context.new] using hg.signatures
  have hagrees : cx₂.Agrees (Defines program) := by
    intro x sig hm
    obtain ⟨d, hd, he⟩ := List.mem_map.mp (hsigs.mem_iff.mp hm)
    cases he
    exact ⟨d, hd, rfl, rfl⟩
  obtain ⟨fs, hfs, hc⟩ := hg.functions
  refine ⟨⟨hforms, ?_, ?_⟩, hg.module⟩
  · have hn := (hsigs.map (·.1)).nodup_iff.mp (hg.distinct List.nodup_nil)
    rwa [List.map_map] at hn
  · rw [hfs]
    exact hc _ hagrees

/-- A program is compiled to a module of its definitions unless it is to blame itself. -/
theorem compile_spec (abi : IR.Abi) (name : String) (program : List Expr)
    (h : ∀ d ∈ definitions program, d.body = [] → hollow) :
    match compile abi name program with
    | .ok m => CompiledProgram abi program m
    | .error e => e.BlamesProgram hollow := by
  have hstep := compileSteps_yields abi name program h
  unfold Yields at hstep
  rw [compile_eq]
  cases hr : compileSteps program (.new name abi) with
  | ok _ cx =>
    rw [hr] at hstep
    simpa only [hr] using hstep.1
  | error e cx =>
    rw [hr] at hstep
    simpa only [hr] using hstep

/-- What is compiled is a module of the definitions. -/
theorem compiledProgram_of_compile {abi : IR.Abi} {name : String} {program : List Expr} {m : IR.Module}
    (h : compile abi name program = .ok m) : CompiledProgram abi program m := by
  have hspec := @compile_spec True abi name program fun _ _ _ => trivial
  rw [h] at hspec
  exact hspec

/-- A module has the name that it is compiled under. -/
theorem name_of_compile {abi : IR.Abi} {name : String} {program : List Expr} {m : IR.Module}
    (h : compile abi name program = .ok m) : m.name = name := by
  have hstep := @compileSteps_yields True abi name program fun _ _ _ => trivial
  rw [compile_eq] at h
  unfold Yields at hstep
  cases hr : compileSteps program (.new name abi) with
  | ok _ cx =>
    rw [hr] at h hstep
    cases h
    exact hstep.2
  | error e cx =>
    rw [hr] at h
    cases h

end Programs

section Linkage
variable {abi : IR.Abi} {program : List Expr} {m : IR.Module}

theorem exists_of_forall₂ {α β : Type} {R : α → β → Prop} {xs : List α} {ys : List β}
    (h : List.Forall₂ R xs ys) {x : α} (hx : x ∈ xs) : ∃ y ∈ ys, R x y := by
  induction h with
  | nil => cases hx
  | cons hxy _ ih =>
    rcases List.mem_cons.mp hx with rfl | hx
    · exact ⟨_, List.mem_cons_self, hxy⟩
    · obtain ⟨y, hy, hr⟩ := ih hx
      exact ⟨y, List.mem_cons_of_mem _ hy, hr⟩

/-- Every function of the module is that of a definition. -/
theorem CompiledProgram.exists_site (h : CompiledProgram abi program m) {f : IR.Function}
    (hf : f ∈ m.functions) : ∃ site ∈ programSites program, Compiled abi (Defines program) site f :=
  exists_of_forall₂ h.functions.flip hf

/-- Every definition of the program has a function. -/
theorem CompiledProgram.exists_function (h : CompiledProgram abi program m) {site : Site}
    (hs : site ∈ programSites program) : ∃ f ∈ m.functions, Compiled abi (Defines program) site f :=
  exists_of_forall₂ h.functions hs

/-- Under distinct names the first element with a name is the only one. -/
theorem find?_of_nodup {α κ : Type} [BEq κ] [LawfulBEq κ] {name : α → κ} {xs : List α}
    (hn : (xs.map name).Nodup) {x : α} (hx : x ∈ xs) : xs.find? (name · == name x) = some x := by
  cases hf : xs.find? (name · == name x) with
  | none => simpa using List.find?_eq_none.mp hf x hx
  | some y =>
    have hname : name y = name x := by simpa using List.find?_some hf
    rw [List.inj_on_of_nodup_map hn (List.mem_of_find?_eq_some hf) hx hname]

theorem CompiledProgram.names_eq (h : CompiledProgram abi program m) :
    m.functions.map (·.name) = (definitions program).map (·.name) := by
  rw [definitions_eq_programSites h.forms, List.map_map]
  have hnames : List.Forall₂ Eq (m.functions.map (·.name))
      ((programSites program).map ((·.name) ∘ (·.definition))) := by
    rw [List.forall₂_map_left_iff, List.forall₂_map_right_iff]
    exact h.functions.flip.imp fun _ _ hc => hc.name
  rwa [List.forall₂_eq_eq_eq] at hnames

/-- A function is found under its name. -/
theorem CompiledProgram.function?_name (h : CompiledProgram abi program m) {f : IR.Function}
    (hf : f ∈ m.functions) : m.function? f.name = some f := by
  have hnodup : (m.functions.map (·.name)).Nodup := by
    rw [h.names_eq]
    exact h.distinct
  exact find?_of_nodup hnodup hf

/-- What a call of a defined name leads to. -/
theorem CompiledProgram.function_of_defines (h : CompiledProgram abi program m) {name : String} {arity : Nat}
    (hd : Defines program name arity) : ∃ site f, m.function? name = some f ∧
      Compiled abi (Defines program) site f ∧
      (definitions program).find? (·.name == name) = some site.definition ∧ site.definition.arity = arity := by
  obtain ⟨d, hd, rfl, rfl⟩ := hd
  have hmem := hd
  rw [definitions_eq_programSites h.forms] at hmem
  obtain ⟨site, hsite, rfl⟩ := List.mem_map.mp hmem
  obtain ⟨f, hf, hc⟩ := h.exists_function hsite
  refine ⟨site, f, ?_, hc, find?_of_nodup h.distinct hd, rfl⟩
  rw [← hc.name]
  exact h.function?_name hf

end Linkage
end SmallLisp
