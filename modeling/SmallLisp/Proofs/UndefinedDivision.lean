import SmallLisp.Proofs.Correctness

/-! # Divisions without a meaning

LLVM gives `sdiv` and `srem` no meaning for a zero divisor, nor where the quotient does not fit, that is for
the least integer over minus one. Where the interpreter has a value, the compiled `main` never divides by
zero. The code has no guard against the second case, in which the interpreter wraps; apart from it, each
executed operation has the result that LLVM says it has.
-/
namespace SmallLisp
open IR (BinOp State)

/-- LLVM leaves the result of an operation open. -/
def IR.BinOp.Undefined (op : BinOp) (a b : Int64) : Prop :=
  (op = .sdiv ∨ op = .srem) ∧ (b = 0 ∨ a = Int64.minValue ∧ b = -1)

/-- The integer that LLVM says an operation results in, where it is not left open: sums, differences and
products modulo 2 to the 64, quotients cut toward zero. -/
def IR.BinOp.exact (op : BinOp) (a b : Int) : Int :=
  match op with
  | .add => (a + b).bmod Int64.size
  | .sub => (a - b).bmod Int64.size
  | .mul => (a * b).bmod Int64.size
  | .sdiv => a.tdiv b
  | .srem => a.tmod b

/-- An operation that LLVM gives a meaning has it on the machine. -/
theorem IR.BinOp.apply_exact {op : BinOp} {a b : Int64} (h : ¬ op.Undefined a b) :
    ∃ w, op.apply a b = some w ∧ w.toInt = op.exact a.toInt b.toInt := by
  have hdivisor : op = .sdiv ∨ op = .srem → b ≠ 0 ∧ (a ≠ Int64.minValue ∨ b ≠ -1) := by
    intro hop
    by_cases hb : b = 0
    · exact absurd ⟨hop, .inl hb⟩ h
    · exact ⟨hb, not_and_or.mp fun hab => h ⟨hop, .inr hab⟩⟩
  cases op with
  | add => exact ⟨_, rfl, Int64.toInt_add a b⟩
  | sub => exact ⟨_, rfl, Int64.toInt_sub a b⟩
  | mul => exact ⟨_, rfl, Int64.toInt_mul a b⟩
  | sdiv =>
    obtain ⟨hb, hab⟩ := hdivisor (.inl rfl)
    refine ⟨a / b, if_neg hb, ?_⟩
    rcases hab with ha | hb
    · exact Int64.toInt_div_of_ne_left a b ha
    · exact Int64.toInt_div_of_ne_right a b hb
  | srem =>
    obtain ⟨hb, -⟩ := hdivisor (.inr rfl)
    exact ⟨a % b, if_neg hb, Int64.toInt_mod a b⟩

def IR.State.operation? (s : State) : Option (BinOp × Int64 × Int64) :=
  match s.top.todo with
  | .binary _ op lhs rhs :: _ =>
    match s.top.read lhs, s.top.read rhs with
    | some a, some b => some (op, a, b)
    | _, _ => none
  | _ => none

namespace IR.Module
variable {m : IR.Module} {answers : Nat → Int64} {name : String} {args : List Int64} {op : BinOp} {a b : Int64}

def Executes (m : IR.Module) (answers : Nat → Int64) (name : String) (args : List Int64) (op : BinOp)
    (a b : Int64) : Prop :=
  ∃ s n t, m.start? name args = some s ∧ m.run answers n s = .running t ∧ t.operation? = some (op, a, b)

/-- An operation without a result traps. -/
theorem step_trapped {s : State} (h : s.operation? = some (op, a, b)) (hnone : op.apply a b = none)
    (answer : Int64) : m.step answer s = .trapped := by
  unfold IR.State.operation? at h
  split at h
  case h_2 => cases h
  case h_1 dst op' lhs rhs rest htodo =>
    split at h
    case h_2 => cases h
    case h_1 a' b' hl hr =>
      cases h
      let t : State := { s with top := { s.top with todo := rest } }
      have hl' : t.top.read lhs = some a := hl
      have hr' : t.top.read rhs = some b := hr
      rw [step, htodo]
      change IR.Instr.run m answer t (.binary dst op lhs rhs) = _
      simp only [IR.Instr.run, hl', hr', hnone]

/-- A run that returns has a result for every operation it executes. -/
theorem Returns.exists_apply {v : Int64} {trace : List IR.KernelCall} (h : m.Returns answers name args v trace)
    (hx : m.Executes answers name args op a b) : ∃ w, op.apply a b = some w := by
  obtain ⟨s, k, hs, hk⟩ := h
  obtain ⟨s', n, t, hs', hn, hop⟩ := hx
  cases hs.symm.trans hs'
  by_contra hnone
  have htrapped : m.run answers (n + 1) s = .trapped := by
    have happly : op.apply a b = none := Option.eq_none_iff_forall_ne_some.mpr fun w hw => hnone ⟨w, hw⟩
    rw [run_add hn, run_succ, step_trapped hop happly]
  have heq : m.run answers (n + 1) s = m.run answers k s :=
    run_unique (by simp [htrapped]) (by simp [hk])
  rw [htrapped, hk] at heq
  cases heq

end IR.Module

/-- The operation that the compiled `main` comes to after a number of steps. -/
def operationAt? (program : List Expr) (steps : Nat) : Option (BinOp × Int64 × Int64) := do
  let m ← (compile .linuxX64 "main" program).toOption
  let s ← m.start? "main" []
  match m.run (fun _ => 0) steps s with
  | .running t => t.operation?
  | _ => none

theorem executes_of_operationAt? {program : List Expr} {steps : Nat} {op : BinOp} {a b : Int64}
    (h : operationAt? program steps = some (op, a, b)) :
    ∃ m, compile .linuxX64 "main" program = .ok m ∧ m.Executes (fun _ => 0) "main" [] op a b := by
  obtain ⟨m, hm, h⟩ := Option.bind_eq_some_iff.mp h
  obtain ⟨s, hs, h⟩ := Option.bind_eq_some_iff.mp h
  obtain ⟨m, hcompile, rfl⟩ := exists_of_map_toOption (Option.map_id'.trans hm)
  refine ⟨_, hcompile, s, steps, ?_⟩
  split at h
  case h_1 t hrun => exact ⟨t, hs, hrun, h⟩
  case h_2 => cases h

section Programs
variable {abi : IR.Abi} {name : String} {program : List Expr} {m : IR.Module} {main : Definition}

theorem EndsInMain.returns (hp : EndsInMain program main) (hm : CompiledProgram abi program m)
    (answers : Nat → Int64) {depth : Nat} {v : Int64} (hv : interpret depth program = some (.ok v)) :
    m.Returns answers "main" [] v [] := by
  obtain ⟨s, hs, hruns⟩ := hm.runs answers (hp.defines hm)
  obtain ⟨ρ', hr⟩ := hp.body_of_interpret hm hv
  have hrun := hruns depth
  rw [hp.outcomes hm answers depth _ _ hr] at hrun
  obtain ⟨n, trace, hn, hasks⟩ := hrun
  cases hasks
  exact ⟨s, n, hs, hn⟩

/-- Where the interpreter has a value, all operations that `main` executes have a meaning unless it divides
the least integer by minus one, and every operation that has a meaning has that result. -/
theorem executed_defined_iff (hp : EndsInMain program main) (h : compile abi name program = .ok m)
    (answers : Nat → Int64) {depth : Nat} {v : Int64} (hv : interpret depth program = some (.ok v)) :
    ((∀ op a b, m.Executes answers "main" [] op a b → ¬ op.Undefined a b) ↔
      ¬ m.Executes answers "main" [] .sdiv Int64.minValue (-1) ∧
        ¬ m.Executes answers "main" [] .srem Int64.minValue (-1)) ∧
    ∀ op a b, m.Executes answers "main" [] op a b → ¬ op.Undefined a b →
      ∃ w, op.apply a b = some w ∧ w.toInt = op.exact a.toInt b.toInt := by
  have hreturns := hp.returns (compiledProgram_of_compile h) answers hv
  refine ⟨⟨fun hdefined => ⟨fun hx => ?_, fun hx => ?_⟩, ?_⟩, fun op a b _ => IR.BinOp.apply_exact⟩
  · exact hdefined _ _ _ hx ⟨.inl rfl, .inr ⟨rfl, rfl⟩⟩
  · exact hdefined _ _ _ hx ⟨.inr rfl, .inr ⟨rfl, rfl⟩⟩
  · rintro ⟨hdiv, hrem⟩ op a b hx ⟨hop, rfl | ⟨rfl, rfl⟩⟩
    · obtain ⟨w, hw⟩ := hreturns.exists_apply hx
      rcases hop with rfl | rfl <;> cases hw
    · rcases hop with rfl | rfl
      · exact hdiv hx
      · exact hrem hx

end Programs

/-- The program `(def main () (/ (- 0 9223372036854775807 1) (- 0 1)))`. -/
def wrappingProgram : List Expr :=
  [.define (mainOf [.call ⟨"/", [
      .call ⟨"-", [.int 0 default, .int 9223372036854775807 default, .int 1 default], default⟩ default,
      .call ⟨"-", [.int 0 default, .int 1 default], default⟩ default], default⟩ default]) default]

/-- The interpreter wraps where `main` executes a division that LLVM leaves undefined. -/
theorem wrappingProgram_executes_undefined : ∃ main m, EndsInMain wrappingProgram main ∧
    compile .linuxX64 "main" wrappingProgram = .ok m ∧
    interpret 20 wrappingProgram = some (.ok Int64.minValue) ∧
    m.Executes (fun _ => 0) "main" [] .sdiv Int64.minValue (-1) ∧
    BinOp.Undefined .sdiv Int64.minValue (-1) := by
  have hoperation : operationAt? wrappingProgram 8 = some (.sdiv, Int64.minValue, -1) := by decide +kernel
  obtain ⟨m, hm, hx⟩ := executes_of_operationAt? hoperation
  have hmain : EndsInMain wrappingProgram _ := ⟨⟨_, rfl⟩, rfl, rfl, by decide +kernel⟩
  exact ⟨_, m, hmain, hm, by decide +kernel, hx, .inl rfl, .inr ⟨rfl, rfl⟩⟩

/-- The program `(def main () (/ (- 0 7) 2))`. -/
def truncatingProgram : List Expr :=
  [.define (mainOf [.call ⟨"/", [.call ⟨"-", [.int 0 default, .int 7 default], default⟩ default, .int 2 default],
      default⟩ default]) default]

/-- A quotient that is cut toward zero, as LLVM says. -/
theorem executed_defined_iff_truncatingProgram : ∃ main m, EndsInMain truncatingProgram main ∧
    compile .linuxX64 "main" truncatingProgram = .ok m ∧ interpret 20 truncatingProgram = some (.ok (-3)) ∧
    m.Executes (fun _ => 0) "main" [] .sdiv (-7) 2 ∧
    ∃ w, BinOp.apply .sdiv (-7) 2 = some w ∧ w.toInt = BinOp.exact .sdiv (-7) 2 := by
  have hoperation : operationAt? truncatingProgram 4 = some (.sdiv, -7, 2) := by decide +kernel
  obtain ⟨m, hm, hx⟩ := executes_of_operationAt? hoperation
  have hmain : EndsInMain truncatingProgram _ := ⟨⟨_, rfl⟩, rfl, rfl, by decide +kernel⟩
  have hvalue : interpret 20 truncatingProgram = some (.ok (-3)) := by decide +kernel
  have hdefined : ¬ BinOp.Undefined .sdiv (-7) 2 := by
    rintro ⟨-, h | ⟨h, -⟩⟩ <;> revert h <;> decide
  exact ⟨_, m, hmain, hm, hvalue, hx, (executed_defined_iff hmain hm _ hvalue).2 _ _ _ hx hdefined⟩

end SmallLisp
