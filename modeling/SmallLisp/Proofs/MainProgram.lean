import SmallLisp.Proofs.Depth
import SmallLisp.Proofs.Environment

/-! # Programs that end in `main`

Evaluating a program defines its functions and then runs the body of `main` in the environment that has
them. Both semantics of a program come down to that body: the interpreter evaluates it in the environment
of all functions, and a call of `main` means it.
-/
namespace SmallLisp

structure EndsInMain (program : List Expr) (main : Definition) : Prop where
  last : ∃ s, program.getLast? = some (.define main s)
  name : main.name = "main"
  params : main.params = []
  distinct : ∀ d ∈ definitions program, d.params.Nodup

/-- The environment once definitions are executed. -/
def definitionEnv (ρ : Env) (ds : List Definition) : Env :=
  { ρ with inner := (ds.map fun d => (d.name, .function d)).reverse ++ ρ.inner }

theorem definitionEnv_append (ρ : Env) (ds : List Definition) (d : Definition) :
    definitionEnv ρ (ds ++ [d]) = (definitionEnv ρ ds).define d.name (.function d) := by
  simp [definitionEnv, Scope.define]

section Definitions
variable {n : Nat} {ρ : Env}

/-- Definitions other than `main` are only bound. -/
theorem foldlM_definitions {es : List Expr} (hforms : ∀ e ∈ es, ∃ d s, e = .define d s)
    (hmain : ∀ d ∈ topDefinitions es, d.isMain = false) (v : Int64) :
    ∃ v', (es.foldlM (fun _ e => Expr.eval (n + 1) e) v) ρ =
      some (.ok v', definitionEnv ρ (topDefinitions es)) := by
  induction es generalizing ρ v with
  | nil => exact ⟨v, rfl⟩
  | cons e es ih =>
    obtain ⟨⟨d, s, rfl⟩, hes⟩ := List.forall_mem_cons.mp hforms
    have htop : topDefinitions (.define d s :: es) = d :: topDefinitions es := rfl
    rw [htop] at hmain ⊢
    obtain ⟨hd, hds⟩ := List.forall_mem_cons.mp hmain
    obtain ⟨v', hv'⟩ := ih (ρ := ρ.define d.name (.function d)) hes hds 0
    refine ⟨v', ?_⟩
    have hstep : Expr.eval (n + 1) (.define d s) ρ = some (.ok 0, ρ.define d.name (.function d)) := by
      change (Expr.define d s).evalStep (Expr.eval n) ρ = _
      rw [Expr.evalStep, hd]
      rfl
    rw [List.foldlM_cons, EvalM.bind_run, hstep]
    refine hv'.trans ?_
    simp [definitionEnv, Scope.define]

end Definitions

section Programs
variable {abi : IR.Abi} {program : List Expr} {m : IR.Module} {main : Definition}

def topEnv (program : List Expr) : Env := definitionEnv .empty (topDefinitions program)

theorem EndsInMain.mem_top (h : EndsInMain program main) : main ∈ topDefinitions program := by
  obtain ⟨s, hs⟩ := h.last
  exact List.mem_filterMap.mpr ⟨_, List.mem_of_getLast? hs, rfl⟩

/-- What is left of a program is the body of `main`. -/
theorem EndsInMain.interpret_eq (h : EndsInMain program main) (hm : CompiledProgram abi program m) (n : Nat) :
    interpret (n + 1) program = ((evalSequence (Expr.eval n) main.body) (topEnv program)).map (·.1) := by
  obtain ⟨s, hs⟩ := h.last
  obtain ⟨init, rfl⟩ := List.getLast?_eq_some_iff.mp hs
  have htop : topDefinitions (init ++ [.define main s]) = topDefinitions init ++ [main] := by
    simp [topDefinitions, Expr.definition?]
  have hmain : main.isMain = true := by simp [Definition.isMain, h.name]
  have hinit : ∀ d ∈ topDefinitions init, d.isMain = false := by
    intro d hd
    have hn := (List.nodup_append.mp hm.nodup_names).1
    rw [htop, List.map_append] at hn
    have hne := (List.nodup_append.mp hn).2.2 _ (List.mem_map_of_mem hd) _ List.mem_cons_self
    simpa [Definition.isMain, h.name] using hne
  obtain ⟨v, hv⟩ := foldlM_definitions (n := n) (ρ := .empty)
    (fun e he => hm.forms e (List.mem_append_left _ he)) hinit 0
  have hdefine : Expr.eval (n + 1) (.define main s) (definitionEnv .empty (topDefinitions init)) =
      evalSequence (Expr.eval n) main.body (topEnv (init ++ [.define main s])) := by
    change (Expr.define main s).evalStep (Expr.eval n) _ = _
    rw [Expr.evalStep, hmain, topEnv, htop, definitionEnv_append]
    rfl
  unfold interpret evalProgram
  congr 1
  refine Eq.trans ?_ hdefine
  rw [evalSequence, List.foldlM_append, EvalM.bind_run, hv]
  change (List.foldlM (fun _ e => Expr.eval (n + 1) e) v [Expr.define main s]) _ = _
  simp only [List.foldlM_cons, List.foldlM_nil, bind_pure]

/-- An outcome of a program is one of the body of `main`. -/
theorem EndsInMain.body_of_interpret (h : EndsInMain program main) (hm : CompiledProgram abi program m) {n : Nat}
    {r : Except EvalError Int64} (hr : interpret n program = some r) :
    ∃ ρ, evalSequence (Expr.eval n) main.body (topEnv program) = some (r, ρ) := by
  have hr := interpret_mono (Nat.le_succ n) hr
  rw [h.interpret_eq hm] at hr
  obtain ⟨⟨r, ρ⟩, hbody, rfl⟩ := Option.map_eq_some_iff.mp hr
  exact ⟨ρ, hbody⟩

/-- In the environment of all functions the body of `main` can be evaluated. -/
theorem topEnv_agrees {root : Scope Storage}
    (hroot : OnlyFunctions root ((topDefinitions program).map (·.name))) (vars : String → Option Int64) :
    Agrees program ((topDefinitions program).map (·.name)) vars root.push (topEnv program) := by
  have hframe : (topEnv program).frames =
      [((topDefinitions program).map fun d => (d.name, Binding.function d)).reverse] := by
    simp [topEnv, definitionEnv, Scope.frames, Scope.empty]
  have hbound : ∀ x ∈ (topDefinitions program).map (·.name), Bound (topEnv program).frames x := by
    intro x hx
    obtain ⟨d, hd, rfl⟩ := List.mem_map.mp hx
    rw [hframe]
    exact ⟨_, List.mem_cons_self, .function d, List.mem_reverse.mpr (List.mem_map.mpr ⟨d, hd, rfl⟩)⟩
  refine ⟨?_, fun x hx => Scope.bound_iff.mp (hbound x hx), ?_, ?_⟩
  · rw [hframe] at hbound ⊢
    refine ⟨?_, trivial⟩
    intro x b hb
    obtain ⟨d, hd, he⟩ := List.mem_map.mp (List.mem_reverse.mp hb)
    cases he
    refine ⟨rfl, (topDefinitions program).map (·.name), List.mem_flatMap.mpr ⟨d, hd, ?_⟩, hbound⟩
    rw [Definition.sites_eq]
    exact List.mem_append_right _ List.mem_cons_self
  · intro x r hx
    exact absurd hx (hroot.push.no_slot x r)
  · intro x hx hnone
    rw [hroot.push x] at hx
    have hmem : x ∈ (topDefinitions program).map (·.name) := by
      by_contra hm
      rw [if_neg hm] at hx
      cases hx
    exact absurd hnone (Scope.bound_iff.mp (hbound x hmem))

theorem EndsInMain.main_mem (h : EndsInMain program main) : "main" ∈ (topDefinitions program).map (·.name) :=
  h.name ▸ List.mem_map_of_mem h.mem_top

theorem EndsInMain.site_mem (h : EndsInMain program main) :
    ⟨main, (topDefinitions program).map (·.name)⟩ ∈ programSites program := by
  refine List.mem_flatMap.mpr ⟨main, h.mem_top, ?_⟩
  rw [Definition.sites_eq]
  exact List.mem_append_right _ List.mem_cons_self

theorem EndsInMain.mem_definitions (h : EndsInMain program main) (hm : CompiledProgram abi program m) :
    main ∈ definitions program := by
  rw [definitions_eq_programSites hm.forms]
  exact List.mem_map_of_mem h.site_mem

theorem EndsInMain.defines (h : EndsInMain program main) (hm : CompiledProgram abi program m) :
    Defines program "main" ([] : List Int64).length := by
  refine ⟨main, h.mem_definitions hm, h.name, ?_⟩
  rw [Definition.arity, h.params]
  rfl

/-- The body of `main` is resolved in a scope that goes with the environment of all functions. -/
theorem EndsInMain.body_resolved (h : EndsInMain program main) (hm : CompiledProgram abi program m)
    (vars : String → Option Int64) : main.body ≠ [] ∧ ∃ σ σ',
      Agrees program ((topDefinitions program).map (·.name)) vars σ (topEnv program) ∧
      Resolved (Defines program) (Placed program ((topDefinitions program).map (·.name))) false σ main.body σ' := by
  obtain ⟨hne, root, σ', hroot, hbody⟩ := hm.body_resolved h.site_mem
  rw [h.params] at hbody
  exact ⟨hne, root.push, σ', topEnv_agrees hroot vars, hbody⟩

/-- A call of `main` means the body of `main`. -/
theorem EndsInMain.meaning_eq (h : EndsInMain program main) (hm : CompiledProgram abi program m)
    (answers : Nat → Int64) (depth : Nat) : callMeaning program answers (depth + 1) "main" [] =
      Run.last (main.body.map (Expr.meaning answers (callMeaning program answers depth) (main.variables []))) := by
  have hfind := find?_of_nodup hm.distinct (h.mem_definitions hm)
  rw [h.name] at hfind
  exact callMeaning_succ hfind []

end Programs
end SmallLisp
