import SmallLisp.Proofs.Interpretation
import SmallLisp.Proofs.MainProgram
import SmallLisp.Proofs.Safety
import SmallLisp.Proofs.Termination

/-! # The compiler against the interpreter

A program that ends in `main` is run by the interpreter and, once compiled, by the machine. The machine
does what the interpreter does wherever the interpreter has a value or divides by zero. In the other
direction the interpreter may miss a function, for it looks functions up through the callers.
-/
namespace SmallLisp

section Programs
variable {abi : IR.Abi} {name : String} {program : List Expr} {m : IR.Module} {main : Definition}

/-- What a call of `main` means is what the interpreter makes of the program. -/
theorem EndsInMain.outcomes (hp : EndsInMain program main) (hm : CompiledProgram abi program m)
    (answers : Nat → Int64) (n : Nat) :
    Outcomes (evalSequence (Expr.eval n) main.body) (topEnv program)
      (fun v _ => callMeaning program answers (n + 1) "main" [] = pure v)
      (callMeaning program answers (n + 1) "main" [] = throw .zeroDivisor) := by
  obtain ⟨hne, σ, σ', hρ, hbody⟩ := hp.body_resolved hm (main.variables [])
  have heach : EvaluatesEach program _ (main.variables [])
      (Expr.meaning answers (callMeaning program answers n) (main.variables [])) (Expr.eval n) main.body σ σ' :=
    eval_evaluates hm hp.distinct hp.main_mem n hbody (Nat.le_refl n)
  rw [hp.meaning_eq hm]
  intro r ρ' hr
  have houtcome := evalSequence_evaluates hne heach (topEnv program) hρ r ρ' hr
  match r with
  | .ok v => exact houtcome.1
  | .error e => exact houtcome

/-- Where a call of `main` has a value and writes nothing, the interpreter reaches it. -/
theorem EndsInMain.reaches (hp : EndsInMain program main) (hm : CompiledProgram abi program m)
    {answers : Nat → Int64} {depth : Nat} {v : Int64}
    (h : callMeaning program answers (depth + 1) "main" [] [] = .ok (v, [])) :
    Reaches program (fun n => evalSequence (Expr.eval n) main.body) (topEnv program) fun v' _ => v' = v := by
  obtain ⟨hne, σ, σ', hρ, hbody⟩ := hp.body_resolved hm (main.variables [])
  rw [hp.meaning_eq hm] at h
  have hattains : Attains program _ (main.variables []) (fun n => main.body.mapM (Expr.eval n))
      (Run.inOrder (main.body.map
        (Expr.meaning answers (callMeaning program answers depth) (main.variables [])))) σ σ' :=
    eval_attains hm hp.distinct hp.main_mem depth hbody
  exact (attains_sequence hne hattains (topEnv program) v [] hρ h).mono fun _ _ hv => hv.1

/-- A machine that returns from `main` without a write has what a call of `main` means. -/
theorem EndsInMain.meaning_of_returns (hp : EndsInMain program main) (hm : CompiledProgram abi program m)
    {answers : Nat → Int64} {v : Int64} (h : m.Returns answers "main" [] v []) :
    ∃ depth, callMeaning program answers (depth + 1) "main" [] [] = .ok (v, []) := by
  obtain ⟨s, n, hs, hn⟩ := h
  obtain ⟨s', hs', hruns⟩ := hm.runs answers (hp.defines hm)
  cases hs.symm.trans hs'
  have hended := Runs.ended hruns (n := n) (by simp [hn])
  rw [hn] at hended
  refine ⟨n, ?_⟩
  match hres : callMeaning program answers (n + 1) "main" [] [] with
  | .ok (w, ws) =>
    rw [hres] at hended
    obtain ⟨trace, htrace, hasks⟩ := hended
    cases htrace
    cases hasks
    rfl
  | .error .zeroDivisor =>
    rw [hres] at hended
    cases hended
  | .error .tooDeep | .error .illFormed =>
    rw [hres] at hended
    exact hended.elim

/-- What the compiled `main` returns without a write in a number of steps. -/
def returned? (program : List Expr) (steps : Nat) : Option Int64 := do
  let m ← (compile .linuxX64 "main" program).toOption
  let s ← m.start? "main" []
  match m.run (fun _ => 0) steps s with
  | .returned v [] => some v
  | _ => none

theorem returns_of_returned? {steps : Nat} {v : Int64} (h : returned? program steps = some v) :
    ∃ m, compile .linuxX64 "main" program = .ok m ∧ m.Returns (fun _ => 0) "main" [] v [] := by
  obtain ⟨m, hm, h⟩ := Option.bind_eq_some_iff.mp h
  obtain ⟨s, hs, h⟩ := Option.bind_eq_some_iff.mp h
  have hcompile : compile .linuxX64 "main" program = .ok m := by
    match hc : compile .linuxX64 "main" program with
    | .ok m' =>
      rw [hc] at hm
      cases hm
      rfl
    | .error e =>
      rw [hc] at hm
      cases hm
  refine ⟨m, hcompile, s, steps, hs, ?_⟩
  split at h
  case h_1 v' hrun =>
    cases h
    exact hrun
  case h_2 => cases h

/-- Where the interpreter has a value, `main` returns it without a write, and where the interpreter
divides by zero, `main` traps. -/
theorem compiled_main_of_interpret (hp : EndsInMain program main) (h : compile abi name program = .ok m)
    (answers : Nat → Int64) :
    (∀ depth v, interpret depth program = some (.ok v) → m.Returns answers "main" [] v []) ∧
      ∀ depth e, interpret depth program = some (.error e) → e.fault = .divisionByZero →
        m.Traps answers "main" [] := by
  have hm := compiledProgram_of_compile h
  obtain ⟨s, hs, hruns⟩ := hm.runs answers (hp.defines hm)
  constructor
  · intro depth v hv
    obtain ⟨ρ', hr⟩ := hp.body_of_interpret hm hv
    have hmeaning := hp.outcomes hm answers depth _ _ hr
    have hrun := hruns depth
    rw [hmeaning] at hrun
    obtain ⟨n, trace, hn, hasks⟩ := hrun
    cases hasks
    exact ⟨s, n, hs, hn⟩
  · intro depth e he hfault
    obtain ⟨ρ', hr⟩ := hp.body_of_interpret hm he
    have hmeaning := hp.outcomes hm answers depth _ _ hr hfault
    have hrun := hruns depth
    rw [hmeaning] at hrun
    obtain ⟨n, hn⟩ := hrun
    exact ⟨s, n, hs, hn⟩

def mainOf (body : List Expr) : Definition := ⟨"main", [], body, default⟩

/-- The program `(def fact (n) (if (< n 2) 1 (* n (fact (- n 1))))) (def main () (fact 5))`. -/
def factProgram : List Expr :=
  [.define ⟨"fact", ["n"], [.branch ⟨"<", [.name "n" default, .int 2 default], default⟩ (.int 1 default)
      (some (.call ⟨"*", [.name "n" default, .call ⟨"fact", [.call ⟨"-", [.name "n" default, .int 1 default],
        default⟩ default], default⟩ default], default⟩ default)) default], default⟩ default,
    .define (mainOf [.call ⟨"fact", [.int 5 default], default⟩ default]) default]

/-- A value by recursion, and a division by zero behind a call. -/
theorem compiled_main_of_interpret_fact_quot :
    (∃ main m, EndsInMain factProgram main ∧ compile .linuxX64 "main" factProgram = .ok m ∧
      interpret 20 factProgram = some (.ok 120) ∧ ∀ answers, m.Returns answers "main" [] 120 []) ∧
    ∃ main m e, EndsInMain quotProgram main ∧ compile .linuxX64 "main" quotProgram = .ok m ∧
      interpret 20 quotProgram = some (.error e) ∧ e.fault = .divisionByZero ∧
      ∀ answers, m.Traps answers "main" [] := by
  constructor
  · obtain ⟨m, hm, -⟩ := returns_of_returned? (show returned? factProgram 200 = some 120 by decide +kernel)
    have hmain : EndsInMain factProgram _ := ⟨⟨_, rfl⟩, rfl, rfl, by decide +kernel⟩
    have hvalue : interpret 20 factProgram = some (.ok 120) := by decide +kernel
    exact ⟨_, m, hmain, hm, hvalue, fun answers => (compiled_main_of_interpret hmain hm answers).1 _ _ hvalue⟩
  · have hmain : EndsInMain quotProgram _ := ⟨⟨_, rfl⟩, rfl, rfl, by decide +kernel⟩
    have hfault : interpret 20 quotProgram = some (.error ⟨.divisionByZero, default⟩) := by decide +kernel
    have hok : (compile .linuxX64 "main" quotProgram).toOption.isSome := by decide +kernel
    match hm : compile .linuxX64 "main" quotProgram with
    | .ok m =>
      exact ⟨_, m, _, hmain, rfl, hfault, rfl,
        fun answers => (compiled_main_of_interpret hmain hm answers).2 _ _ hfault rfl⟩
    | .error e =>
      rw [hm] at hok
      cases hok

/-- Where `main` returns without a write, the interpreter has the value at every depth that is great
enough, or it misses a function at a call. -/
theorem interpret_of_compiled_main (hp : EndsInMain program main) (h : compile abi name program = .ok m)
    {answers : Nat → Int64} {v : Int64} (hv : m.Returns answers "main" [] v []) :
    ∃ bound result, (∀ depth, bound ≤ depth → interpret depth program = some result) ∧
      (result = .ok v ∨ ∃ e, result = .error e ∧ Missed program e.fault) := by
  have hm := compiledProgram_of_compile h
  obtain ⟨depth, hmeaning⟩ := hp.meaning_of_returns hm hv
  obtain ⟨bound, result, ρ', hbound, hresult⟩ := hp.reaches hm hmeaning
  refine ⟨bound + 1, result, ?_, ?_⟩
  · intro depth hdepth
    obtain ⟨n, rfl⟩ : ∃ n, depth = n + 1 := ⟨depth - 1, by omega⟩
    have hbody : evalSequence (Expr.eval n) main.body (topEnv program) = some (result, ρ') :=
      hbound n (Nat.le_of_succ_le_succ hdepth)
    rw [hp.interpret_eq hm, hbody]
    rfl
  · match result with
    | .ok w => exact .inl (congrArg _ hresult)
    | .error e => exact .inr ⟨e, rfl, hresult⟩

/-- The compiled `factorial` and the interpreter agree. -/
theorem interpret_of_compiled_main_fact : ∃ main m, EndsInMain factProgram main ∧
    compile .linuxX64 "main" factProgram = .ok m ∧ m.Returns (fun _ => 0) "main" [] 120 [] ∧
    ∃ bound result, (∀ depth, bound ≤ depth → interpret depth factProgram = some result) ∧
      (result = .ok 120 ∨ ∃ e, result = .error e ∧ Missed factProgram e.fault) := by
  obtain ⟨m, hm, hreturns⟩ := returns_of_returned? (show returned? factProgram 200 = some 120 by decide +kernel)
  have hmain : EndsInMain factProgram _ := ⟨⟨_, rfl⟩, rfl, rfl, by decide +kernel⟩
  exact ⟨_, m, hmain, hm, hreturns, interpret_of_compiled_main hmain hm hreturns⟩

/-- `main` returns a value without a write, and the interpreter has a fault and no value. -/
def Disagrees (program : List Expr) (v : Int64) (fault : EvalFault) : Prop :=
  (∃ main, EndsInMain program main) ∧
  (∃ m, compile .linuxX64 "main" program = .ok m ∧ m.Returns (fun _ => 0) "main" [] v []) ∧
  (∃ depth e, interpret depth program = some (.error e) ∧ e.fault = fault) ∧
  ∀ depth w, interpret depth program ≠ some (.ok w)

theorem disagrees_of_interpret (hmain : EndsInMain program main) {steps depth : Nat} {v : Int64} {e : EvalError}
    (hv : returned? program steps = some v) (he : interpret depth program = some (.error e)) :
    Disagrees program v e.fault := by
  refine ⟨⟨main, hmain⟩, returns_of_returned? hv, ⟨depth, e, he, rfl⟩, ?_⟩
  intro n w hw
  cases interpret_unique he hw

/-- The program `(def g () 5) (def h () (g)) (def f (g) (h)) (def main () (f 1))`. -/
def hidingProgram : List Expr :=
  [.define ⟨"g", [], [.int 5 default], default⟩ default,
    .define ⟨"h", [], [.call ⟨"g", [], default⟩ default], default⟩ default,
    .define ⟨"f", ["g"], [.call ⟨"h", [], default⟩ default], default⟩ default,
    .define (mainOf [.call ⟨"f", [.int 1 default], default⟩ default]) default]

/-- The program `(def main () (if (< 1 2) 0 (def h () 1)) (h))`. -/
def skippingProgram : List Expr :=
  [.define (mainOf [.branch ⟨"<", [.int 1 default, .int 2 default], default⟩ (.int 0 default)
      (some (.define ⟨"h", [], [.int 1 default], default⟩ default)) default,
    .call ⟨"h", [], default⟩ default]) default]

/-- Either way to miss a function makes the two disagree. -/
theorem functions_missed : Disagrees hidingProgram 5 (.typeMismatch .function .integer) ∧
    Disagrees skippingProgram 1 (.unboundName "h") := by
  constructor
  · have hmain : EndsInMain hidingProgram _ := ⟨⟨_, rfl⟩, rfl, rfl, by decide +kernel⟩
    have hvalue : returned? hidingProgram 200 = some 5 := by decide +kernel
    have hfault : interpret 20 hidingProgram = some (.error ⟨.typeMismatch .function .integer, default⟩) := by
      decide +kernel
    exact disagrees_of_interpret hmain hvalue hfault
  · have hmain : EndsInMain skippingProgram _ := ⟨⟨_, rfl⟩, rfl, rfl, by decide +kernel⟩
    have hvalue : returned? skippingProgram 200 = some 1 := by decide +kernel
    have hfault : interpret 20 skippingProgram = some (.error ⟨.unboundName "h", default⟩) := by decide +kernel
    exact disagrees_of_interpret hmain hvalue hfault

end Programs
end SmallLisp
