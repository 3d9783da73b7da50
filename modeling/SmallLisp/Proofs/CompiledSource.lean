import SmallLisp.Problem
import SmallLisp.Proofs.CompiledChecks
import SmallLisp.Proofs.ReadTrees

/-! # Compiling a source text

Whatever the text, the compiler reports a fault in it or makes a module that verifies. It never reports a
fault of its own, since bodies read from text are not empty, and lowering never misuses a builder, not
even on a tree that was made by hand.
-/
namespace SmallLisp

/-- The only internal fault of compiling a tree is an empty body. -/
theorem compile_internal {abi : IR.Abi} {name : String} {program : List Expr} {fault : InternalFault}
    (h : compile abi name program = .error (.internal fault)) :
    ∃ function, fault = .emptyBody function := by
  have hspec := @compile_spec True abi name program fun _ _ _ => trivial
  rw [h] at hspec
  cases fault with
  | emptyBody function => exact ⟨function, rfl⟩
  | unfinished _ | misuse _ => exact hspec.elim

/-- A compiled source is a compiled program. -/
theorem compile_of_compileSource {source name : String} {host : IR.Abi} {m : IR.Module}
    (h : compileSource source name host = .ok m) :
    ∃ program, parse source = .ok program ∧ compile host name program = .ok m := by
  unfold compileSource at h
  cases hp : parse source with
  | error e => simp [hp, Except.mapError, bind, Except.bind] at h
  | ok program =>
    cases hc : compile host name program with
    | error e => simp [hp, hc, Except.mapError, bind, Except.bind] at h
    | ok m' =>
      cases hv : m'.verify with
      | error e => simp [hp, hc, hv, Except.mapError, bind, Except.bind] at h
      | ok u =>
        simp only [hp, hc, hv, Except.mapError, bind, Except.bind, pure, Except.pure] at h
        cases h
        exact ⟨program, rfl, hc⟩

/-- Every function of a compiled source is made from a definition. -/
theorem exists_compiled_of_compileSource {source name : String} {host : IR.Abi} {m : IR.Module}
    (h : compileSource source name host = .ok m) {f : IR.Function} (hf : f ∈ m.functions) :
    ∃ program site, Compiled host (Defines program) site f := by
  obtain ⟨program, -, hcompile⟩ := compile_of_compileSource h
  obtain ⟨site, -, hc⟩ := (compiledProgram_of_compile hcompile).exists_site hf
  exact ⟨program, site, hc⟩

/-- A source text has a fault of syntax, or a fault that compilation finds in it, or it is compiled to a
module that verifies; and no step of a lowering is a misuse of the builder. -/
theorem compileSource_verified (source name : String) (host : IR.Abi) :
    ((∃ e, compileSource source name host = .error (.reading e)) ∨
      (∃ e, compileSource source name host = .error (.compilation e) ∧
        (∀ fault, e ≠ .internal fault) ∧ ∀ error, e ≠ .malformed error) ∨
      ∃ m, compileSource source name host = .ok m ∧ m.verify = .ok ()) ∧
    ∀ abi program cause, compile abi name program ≠ .error (.internal (.misuse cause)) := by
  constructor
  · cases hp : parse source with
    | error e => exact .inl ⟨e, by simp [compileSource, hp, Except.mapError, bind, Except.bind]⟩
    | ok program =>
      right
      have hbodies : ∀ d ∈ definitions program, d.body = [] → False := body_ne_nil_of_parse hp
      have hspec := compile_spec host name program hbodies
      cases hc : compile host name program with
      | error e =>
        rw [hc] at hspec
        refine .inl ⟨e, by simp [compileSource, hp, hc, Except.mapError, bind, Except.bind], ?_, ?_⟩
        · rintro fault rfl
          cases fault <;> exact hspec
        · rintro error rfl
          exact hspec
      | ok m =>
        rw [hc] at hspec
        have hv := hspec.verify_ok
        refine .inr ⟨m, ?_, hv⟩
        simp [compileSource, hp, hc, hv, Except.mapError, bind, Except.bind, pure, Except.pure]
  · intro abi program cause h
    obtain ⟨function, hf⟩ := compile_internal h
    cases hf

end SmallLisp
