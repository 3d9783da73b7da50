import SmallLisp.Proofs.CallSimulation

/-! # Compiled programs do not get stuck

Whatever the depth of calls, a run does what the meaning says, and no meaning leaves the machine without
a step. So every run of a function of a compiled module returns, traps or goes on.
-/
namespace SmallLisp
open IR (State KernelCall)

section Runs
variable {m : IR.Module} {answers : Nat → Int64} {abi : IR.Abi} {s : State}
  {results : Nat → Except Halt (Int64 × List Write)}

/-- A run that has ended is described by the result at every greater depth. -/
theorem Runs.ended (h : ∀ depth, Runs m answers abi depth s (results depth)) {n : Nat}
    (hn : ∀ t, m.run answers n s ≠ .running t) : match results n with
      | .ok (v, ws) => ∃ trace, m.run answers n s = .returned v trace ∧
          List.Forall₂ (KernelCall.Asks abi) trace ws
      | .error .zeroDivisor => m.run answers n s = .trapped
      | .error _ => False := by
  have hr := h n
  match hres : results n with
  | .ok (v, ws) =>
    rw [hres] at hr
    obtain ⟨k, trace, hk, htrace⟩ := hr
    refine ⟨trace, ?_, htrace⟩
    rw [← hk]
    exact IR.Module.run_unique hn (by simp [hk])
  | .error .zeroDivisor =>
    rw [hres] at hr
    obtain ⟨k, hk⟩ := hr
    change m.run answers n s = .trapped
    rw [← hk]
    exact IR.Module.run_unique hn (by simp [hk])
  | .error .tooDeep =>
    rw [hres] at hr
    obtain ⟨k, t, hle, hk⟩ := hr
    rw [IR.Module.run_of_le hn hle] at hk
    exact hn t hk
  | .error .illFormed =>
    rw [hres] at hr
    exact hr

theorem Runs.not_stuck (h : ∀ depth, Runs m answers abi depth s (results depth)) (n : Nat) :
    m.run answers n s ≠ .stuck := by
  intro hn
  have hr := Runs.ended h (n := n) (by simp [hn])
  rw [hn] at hr
  match hres : results n with
  | .ok (v, ws) =>
    rw [hres] at hr
    obtain ⟨_, ht, _⟩ := hr
    cases ht
  | .error .zeroDivisor =>
    rw [hres] at hr
    cases hr
  | .error .tooDeep | .error .illFormed =>
    rw [hres] at hr
    exact hr

end Runs

/-- Every function of a compiled module can be called with as many arguments as it has parameters, and
whatever the kernel answers, no state that is reached is stuck. -/
theorem compiled_not_stuck {abi : IR.Abi} {name : String} {program : List Expr} {m : IR.Module}
    (h : compile abi name program = .ok m) {f : IR.Function} (hf : f ∈ m.functions) {args : List Int64}
    (hargs : args.length = f.params.length) : ∃ a, f.activate args = some a ∧
      ∀ answers n, m.run answers n { top := a } ≠ .stuck := by
  have hspec := compiledProgram_of_compile h
  obtain ⟨site, hsite, hc⟩ := hspec.exists_site hf
  obtain ⟨a, ha⟩ := hc.activate (by rw [hargs, hc.params]; rfl)
  refine ⟨a, ha, fun answers n => ?_⟩
  have hd : Defines program f.name args.length := by
    refine ⟨site.definition, ?_, hc.name.symm, ?_⟩
    · rw [definitions_eq_programSites hspec.forms]
      exact List.mem_map_of_mem hsite
    · rw [hargs, hc.params]
      rfl
  obtain ⟨s, hs, hruns⟩ := hspec.runs answers hd
  rw [IR.Module.start?, hspec.function?_name hf, Option.bind_some, ha] at hs
  cases hs
  exact Runs.not_stuck hruns n

/-- The program `(def quot (a b) (/ a b)) (def main () (quot 1 0))`. -/
def quotProgram : List Expr :=
  [.define ⟨"quot", ["a", "b"], [.call ⟨"/", [.name "a" default, .name "b" default], default⟩ default],
      default⟩ default,
    .define ⟨"main", [], [.call ⟨"quot", [.int 1 default, .int 0 default], default⟩ default], default⟩ default]

/-- A run of `quot` that traps is not stuck. -/
theorem compiled_not_stuck_quot : ∃ m f, compile .linuxX64 "quot" quotProgram = .ok m ∧ f ∈ m.functions ∧
    [1, 0].length = f.params.length ∧ ∃ a, f.activate [1, 0] = some a ∧
      ∀ answers n, m.run answers n { top := a } ≠ .stuck := by
  have hquot : ((compile .linuxX64 "quot" quotProgram).toOption.bind (·.function? "quot")).map (·.params.length) =
      some 2 := by decide +kernel
  cases hm : compile .linuxX64 "quot" quotProgram with
  | error e =>
    rw [hm] at hquot
    cases hquot
  | ok m =>
    rw [hm] at hquot
    obtain ⟨f, hf, hparams⟩ := Option.map_eq_some_iff.mp hquot
    have hmem : f ∈ m.functions := List.mem_of_find?_eq_some hf
    exact ⟨m, f, rfl, hmem, hparams.symm, compiled_not_stuck hm hmem hparams.symm⟩

end SmallLisp
