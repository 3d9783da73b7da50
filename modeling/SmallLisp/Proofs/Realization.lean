import SmallLisp.IR.Machine
import SmallLisp.IR.Syscall
import SmallLisp.Proofs.LinearCode
import SmallLisp.Proofs.Meaning
import Mathlib.Data.List.Forall2

/-! # Machines that do what computations do

From a state the machine realizes a computation if it reaches a described state where the computation has
a value, traps where the computation stops at a zero divisor, and goes on for at least as many steps as
calls may nest where the computation nests deeper. Realizing is closed under sequencing, so the
simulation of a construct is put together from those of its parts.
-/
namespace SmallLisp
open IR (State KernelCall)

structure KernelCall.Asks (abi : IR.Abi) (call : KernelCall) (w : Write) : Prop where
  template : call.template = abi.template
  constraints : call.constraints = abi.constraints
  args : ∃ i, call.args = [abi.writeNumber, w.fd, .ofNat i, w.length] ∧ call.memory[i]? = some w.value
  answer : call.answer = w.answer

/-- From a state the machine does what a computation with a given result does. -/
def Realizes {α : Type} (m : IR.Module) (answers : Nat → Int64) (depth : Nat) (s : State)
    (result : Except Halt (α × List Write)) (post : α → List Write → State → Prop) : Prop :=
  match result with
  | .ok (v, ws) => ∃ n t, m.run answers n s = .running t ∧ post v ws t
  | .error .zeroDivisor => ∃ n, m.run answers n s = .trapped
  | .error .tooDeep => ∃ n t, depth ≤ n ∧ m.run answers n s = .running t
  | .error .illFormed => False

namespace Realizes
variable {α β : Type} {m : IR.Module} {answers : Nat → Int64} {depth : Nat} {s t : State} {ws : List Write}

/-- What is realized after some steps. -/
theorem of_run {result : Except Halt (α × List Write)} {post : α → List Write → State → Prop} {n : Nat}
    (hn : m.run answers n s = .running t) (h : Realizes m answers depth t result post) :
    Realizes m answers depth s result post := by
  match result with
  | .ok (v, ws) =>
    obtain ⟨k, u, hk, hu⟩ := h
    exact ⟨n + k, u, (IR.Module.run_add hn k).trans hk, hu⟩
  | .error .zeroDivisor =>
    obtain ⟨k, hk⟩ := h
    exact ⟨n + k, (IR.Module.run_add hn k).trans hk⟩
  | .error .tooDeep =>
    obtain ⟨k, u, hle, hk⟩ := h
    exact ⟨n + k, u, by omega, (IR.Module.run_add hn k).trans hk⟩
  | .error .illFormed => exact h

theorem of_step {result : Except Halt (α × List Write)} {post : α → List Write → State → Prop}
    (hs : m.step (answers s.trace.length) s = .running t) (h : Realizes m answers depth t result post) :
    Realizes m answers depth s result post := by
  refine of_run (n := 1) ?_ h
  rw [IR.Module.run_succ, hs]
  rfl

/-- A step into a computation that is allowed one call less. -/
theorem of_step_succ {result : Except Halt (α × List Write)} {post : α → List Write → State → Prop}
    (hs : m.step (answers s.trace.length) s = .running t) (h : Realizes m answers depth t result post) :
    Realizes m answers (depth + 1) s result post := by
  have hrun : m.run answers 1 s = .running t := by
    rw [IR.Module.run_succ, hs]
    rfl
  match result with
  | .ok _ | .error .zeroDivisor | .error .illFormed => exact of_step hs h
  | .error .tooDeep =>
    obtain ⟨k, u, hle, hk⟩ := h
    exact ⟨1 + k, u, by omega, (IR.Module.run_add hrun k).trans hk⟩

theorem done {v : α} {post : α → List Write → State → Prop} (h : post v ws s) :
    Realizes m answers depth s (.ok (v, ws)) post := ⟨0, s, rfl, h⟩

theorem trap {post : α → List Write → State → Prop} (hs : m.step (answers s.trace.length) s = .trapped) :
    Realizes m answers depth s (.error .zeroDivisor) post := by
  refine ⟨1, ?_⟩
  rw [IR.Module.run_succ, hs]

/-- Where no call is allowed there is nothing to do. -/
theorem tooDeep_zero {post : α → List Write → State → Prop} :
    Realizes m answers 0 s (.error .tooDeep) post := ⟨0, s, Nat.le_refl _, rfl⟩

theorem mono {result : Except Halt (α × List Write)} {mid post : α → List Write → State → Prop}
    (h : Realizes m answers depth s result mid) (hp : ∀ v ws t, mid v ws t → post v ws t) :
    Realizes m answers depth s result post := by
  match result with
  | .ok (v, ws) =>
    obtain ⟨n, t, hn, ht⟩ := h
    exact ⟨n, t, hn, hp v ws t ht⟩
  | .error .zeroDivisor | .error .tooDeep | .error .illFormed => exact h

/-- More steps that leave the result as it is. -/
theorem and_then {result : Except Halt (α × List Write)} {mid post : α → List Write → State → Prop}
    (h : Realizes m answers depth s result mid)
    (hp : ∀ v ws t, mid v ws t → Realizes m answers depth t (.ok (v, ws)) post) :
    Realizes m answers depth s result post := by
  match result with
  | .ok (v, ws) =>
    obtain ⟨n, t, hn, ht⟩ := h
    exact of_run hn (hp v ws t ht)
  | .error .zeroDivisor | .error .tooDeep | .error .illFormed => exact h

/-- One computation after another. -/
theorem bind {x : Run α} {f : α → Run β} {mid : α → List Write → State → Prop}
    {post : β → List Write → State → Prop} (h : Realizes m answers depth s (x ws) mid)
    (hf : ∀ v ws t, mid v ws t → Realizes m answers depth t (f v ws) post) :
    Realizes m answers depth s ((x >>= f) ws) post := by
  have hbind : (x >>= f) ws = match x ws with
      | .ok (v, ws') => f v ws'
      | .error e => .error e := by
    change Except.bind (x ws) _ = _
    unfold Except.bind
    cases x ws <;> rfl
  rw [hbind]
  cases hx : x ws with
  | ok r =>
    rw [hx] at h
    obtain ⟨n, t, hn, ht⟩ := h
    exact of_run hn (hf r.1 r.2 t ht)
  | error e =>
    rw [hx] at h
    cases e <;> exact h

end Realizes
end SmallLisp
