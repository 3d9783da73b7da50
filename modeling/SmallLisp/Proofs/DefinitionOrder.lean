import SmallLisp.Proofs.Acceptance
import SmallLisp.Proofs.EmissionUnique
import SmallLisp.Proofs.Linkage

/-! # The order of definitions

All definitions at the top are declared before any body is compiled, so a program may list them in any
order: either every order is compiled or none is. What a definition adds to the module, with the definitions
in it, is the same wherever it stands, and the module lists these groups in the order of the program.
-/
namespace SmallLisp

/-! ## Acceptance -/

section Sites
variable {visible visible' : List String}

def Site.under (visible : List String) (site : Site) : Site := ⟨site.definition, site.visible ++ visible⟩

theorem sitesEach_eq_map {es : List Expr} (h : ∀ e ∈ es, ∀ v, e.sites v = (e.sites []).map (·.under v))
    (visible : List String) : sitesEach visible es = (sitesEach [] es).map (·.under visible) := by
  induction es with
  | nil => simp only [sitesEach, List.map_nil]
  | cons e es ih =>
    obtain ⟨he, hes⟩ := List.forall_mem_cons.mp h
    rw [sitesEach, sitesEach, List.map_append, he, ih hes]

/-- What is visible around an expression is visible to every definition in it. -/
theorem Expr.sites_eq_map (e : Expr) : ∀ visible, e.sites visible = (e.sites []).map (·.under visible) := by
  induction e using Expr.induction with
  | int _ _ | name _ _ => exact fun _ => rfl
  | ref e _ ih => simpa only [Expr.sites] using ih
  | call c _ ih =>
    intro visible
    simpa only [Expr.sites_call] using sitesEach_eq_map ih visible
  | define d _ ih =>
    intro visible
    have hunder : Site.under visible ∘ Site.under [d.name] = Site.under (d.name :: visible) := by
      funext site
      simp [Site.under]
    simp only [Expr.sites, Definition.sites_eq, sitesEach_eq_map ih (d.name :: visible),
      sitesEach_eq_map ih [d.name], List.map_append, List.map_map, hunder]
    rfl
  | branch t y n _ iht ihy ihn =>
    intro visible
    simp only [Expr.sites_branch, List.map_append, sitesEach_eq_map iht visible, ihy visible,
      sitesEach_eq_map (fun e he => ihn e (Option.mem_toList.mp he)) visible]

/-- Only which functions are visible matters, not in which order. -/
theorem Definition.exists_site (d : Definition) (hv : ∀ x, x ∈ visible ↔ x ∈ visible') {site : Site}
    (hs : site ∈ d.sites visible) : ∃ site' ∈ d.sites visible', site'.definition = site.definition ∧
      ∀ x, x ∈ site'.visible ↔ x ∈ site.visible := by
  have hmap : ∀ v, d.sites v = (d.sites []).map (·.under v) := by
    intro v
    rw [Definition.sites_eq, Definition.sites_eq, List.map_append,
      sitesEach_eq_map (fun e _ => e.sites_eq_map) v]
    rfl
  rw [hmap] at hs ⊢
  obtain ⟨inner, hinner, rfl⟩ := List.mem_map.mp hs
  refine ⟨_, List.mem_map_of_mem hinner, rfl, fun x => ?_⟩
  simp only [Site.under, List.mem_append, hv]

end Sites

section Permutations
variable {p q : List Expr}

theorem definitions_perm (h : q.Perm p) : (definitions q).Perm (definitions p) := by
  unfold definitions
  rw [sitesEach_eq_flatMap, sitesEach_eq_flatMap]
  exact (h.flatMap_right _).map _

theorem topDefinitions_perm (h : q.Perm p) : (topDefinitions q).Perm (topDefinitions p) := h.filterMap _

theorem defines_perm (h : q.Perm p) : Defines q = Defines p := by
  funext name arity
  refine propext (exists_congr fun d => and_congr_left fun _ => ?_)
  exact (definitions_perm h).mem_iff

/-- Every order of a compiled program is well-formed. -/
theorem CompiledProgram.wellFormed_perm {abi : IR.Abi} {m : IR.Module} (hp : CompiledProgram abi p m)
    (h : q.Perm p) : WellFormed q := by
  refine ⟨fun e he => hp.forms e (h.mem_iff.mp he), ?_, fun site hsite => ?_⟩
  · exact ((definitions_perm h).map _).nodup_iff.mpr hp.distinct
  · obtain ⟨d, hd, hsite⟩ := List.mem_flatMap.mp hsite
    have hvisible : ∀ x, x ∈ (topDefinitions q).map (·.name) ↔ x ∈ (topDefinitions p).map (·.name) :=
      fun x => ((topDefinitions_perm h).map _).mem_iff
    obtain ⟨site', hsite', hdef, hv⟩ := d.exists_site hvisible hsite
    have hmem : site' ∈ programSites p :=
      List.mem_flatMap.mpr ⟨d, (topDefinitions_perm h).mem_iff.mp hd, hsite'⟩
    obtain ⟨hne, root, σ, hroot, hbody⟩ := hp.body_resolved hmem
    rw [hdef] at hne hbody
    rw [← defines_perm h] at hbody
    have hroot : OnlyFunctions root site.visible := fun x => by simp only [hroot x, hv]
    obtain ⟨Γ, hΓ, -⟩ := hbody.checks hroot.site_names
    exact ⟨hne, Γ, hΓ⟩

end Permutations

/-! ## Groups of functions -/

/-- The functions that each of several definitions adds to the module when they are compiled in turn. -/
def groupsFrom (root : Scope Storage) : List Definition → Context → List (Definition × List IR.Function)
  | [], _ => []
  | d :: ds, cx =>
    match d.lower root cx with
    | .ok _ cx' => (d, cx'.module.functions.drop cx.module.functions.length) :: groupsFrom root ds cx'
    | .error _ _ => []

/-- The definitions at the top of a program, each with the functions it adds to the module. -/
def compiledGroups (abi : IR.Abi) (name : String) (program : List Expr) : List (Definition × List IR.Function) :=
  match declareProgram program (.new name abi) with
  | .ok (root, ds) cx => groupsFrom root ds cx
  | .error _ _ => []

section Groups
variable {abi : IR.Abi} {name : String} {group : Definition → List IR.Function}

/-- Compiling definitions one after the other adds the group of each. -/
theorem groupsFrom_eq (hgroup : IsGrouping abi group) {root : Scope Storage} {visible : List String}
    (hroot : OnlyFunctions root visible) {ds : List Definition} {cx cx' : Context} (habi : cx.abi = abi)
    (h : ds.forM (·.lower root) cx = .ok () cx') :
    groupsFrom root ds cx = ds.map (fun d => (d, group d)) ∧
      cx'.module.functions = cx.module.functions ++ ds.flatMap group := by
  induction ds generalizing cx with
  | nil =>
    cases h
    exact ⟨rfl, (List.append_nil _).symm⟩
  | cons d ds ih =>
    have hlow : ∀ e ∈ d.body, Lowers True (e.lower root) (.expr e) (e.sites visible) :=
      Lowerable.each (fun e _ => e.lowerable) hroot fun _ _ _ => trivial
    obtain ⟨_, cx₁, (hr : d.lower root cx = _), h⟩ := exists_of_bind_eq_ok h
    have hd := (definition_yields hroot (fun _ => trivial) hlow cx).of_eq_ok hr
    obtain ⟨fs, hfs, hc⟩ := hd.functions
    rw [habi] at hc
    obtain rfl := hgroup d visible (fun _ _ => True) fs (hc _ fun _ _ _ => trivial)
    obtain ⟨hgroups, hfunctions⟩ := ih (hd.abi.trans habi) h
    refine ⟨?_, ?_⟩
    · rw [groupsFrom, hr]
      simp only [hgroups, hfs, List.drop_left, List.map_cons]
    · rw [hfunctions, hfs, List.append_assoc, List.flatMap_cons]

/-- The groups of a program that is compiled make up its module. -/
theorem compiledGroups_eq (hgroup : IsGrouping abi group) {program : List Expr} {m : IR.Module}
    (h : compile abi name program = .ok m) :
    compiledGroups abi name program = (topDefinitions program).map (fun d => (d, group d)) ∧
      m.functions = (topDefinitions program).flatMap group := by
  rw [compile_eq] at h
  cases hr : compileSteps program (.new name abi) with
  | error e _ =>
    rw [hr] at h
    cases h
  | ok _ cx' =>
    rw [hr] at h
    cases h
    obtain ⟨⟨root, ds⟩, cx, hdeclared, hrun⟩ := exists_of_bind_eq_ok hr
    have hdeclare := @declareFrom_yields True program _ _ onlyFunctions_empty (.new name abi)
    obtain ⟨-, hds, hroot, hg⟩ := hdeclare.of_eq_ok hdeclared
    subst hds
    obtain ⟨fs, hfs, hnone⟩ := hg.functions
    cases hnone (fun _ _ => True) fun _ _ _ => trivial
    obtain ⟨hgroups, hfunctions⟩ := groupsFrom_eq hgroup hroot hg.abi hrun
    refine ⟨?_, ?_⟩
    · rw [compiledGroups, hdeclared]
      exact hgroups
    · rw [hfunctions, hfs]
      rfl

end Groups

/-! ## Both orders -/

theorem exists_compile_of_perm {p q : List Expr} (h : q.Perm p) {abi : IR.Abi} {name : String}
    (hp : ∃ m, compile abi name p = .ok m) : ∃ m, compile abi name q = .ok m := by
  obtain ⟨m, hm⟩ := hp
  exact ((compiledProgram_of_compile hm).wellFormed_perm h).exists_compile abi name

/-- Both orders of a program are compiled or neither is, and every definition at the top adds the same
functions in both; each module has the groups of functions in the order of its program. -/
theorem compile_perm {p q : List Expr} (h : q.Perm p) (abi : IR.Abi) (name : String) :
    ((∃ m, compile abi name q = .ok m) ↔ ∃ m, compile abi name p = .ok m) ∧
    ∀ m m', compile abi name p = .ok m → compile abi name q = .ok m' →
      ∃ group : Definition → List IR.Function,
        compiledGroups abi name p = (topDefinitions p).map (fun d => (d, group d)) ∧
        m.functions = (topDefinitions p).flatMap group ∧
        compiledGroups abi name q = (topDefinitions q).map (fun d => (d, group d)) ∧
        m'.functions = (topDefinitions q).flatMap group := by
  constructor
  · exact ⟨exists_compile_of_perm h.symm, exists_compile_of_perm h⟩
  · intro m m' hm hm'
    obtain ⟨group, hgroup⟩ := exists_isGrouping abi
    obtain ⟨hgroups, hfunctions⟩ := compiledGroups_eq hgroup hm
    obtain ⟨hgroups', hfunctions'⟩ := compiledGroups_eq hgroup hm'
    exact ⟨group, hgroups, hfunctions, hgroups', hfunctions'⟩

/-- A program read from its end, with a definition in another. -/
theorem compile_perm_nested : ∃ m m', compile .linuxX64 "m" nestedProgram = .ok m ∧
    compile .linuxX64 "m" nestedProgram.reverse = .ok m' ∧ m.functions.map (·.name) = ["main", "add", "twice"] ∧
    m'.functions.map (·.name) = ["add", "twice", "main"] ∧ ∃ group : Definition → List IR.Function,
      m.functions = (topDefinitions nestedProgram).flatMap group ∧
      m'.functions = (topDefinitions nestedProgram.reverse).flatMap group := by
  have hnames : (compile .linuxX64 "m" nestedProgram).toOption.map (·.functions.map (·.name)) =
      some ["main", "add", "twice"] := by decide +kernel
  have hnames' : (compile .linuxX64 "m" nestedProgram.reverse).toOption.map (·.functions.map (·.name)) =
      some ["add", "twice", "main"] := by decide +kernel
  obtain ⟨m, hm, hnames⟩ := exists_of_map_toOption hnames
  obtain ⟨m', hm', hnames'⟩ := exists_of_map_toOption hnames'
  obtain ⟨-, hgroups⟩ := compile_perm nestedProgram.reverse_perm .linuxX64 "m"
  obtain ⟨group, -, hfunctions, -, hfunctions'⟩ := hgroups m m' hm hm'
  exact ⟨m, m', hm, hm', hnames, hnames', group, hfunctions, hfunctions'⟩

end SmallLisp
