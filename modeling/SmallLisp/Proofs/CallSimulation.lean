import SmallLisp.Proofs.CompiledChecks
import SmallLisp.Proofs.Simulation

/-! # Calls compute the meaning

A function puts its arguments into slots, executes its body and returns the result. By induction on the
depth of calls every call realizes its meaning, and so does a run of the machine that starts with a
function of the module.
-/
namespace SmallLisp
open IR (Reg BlockId Operand Instr Item Code State Terminator KernelCall)

section Parameters
variable {E : Setting} {m : IR.Module} {answers : Nat → Int64} {depth : Nat} {id : BlockId} {rest : Code}

def Setting.withSlots (E : Setting) (n : Nat) : Setting := { E with slots := n }

/-- A name is bound to the next slot. -/
theorem Setting.Ready.bind {σ : Scope Storage} {c : Code} {s : State} {ws : List Write} {n : Nat} {x : String}
    {v : Int64} (h : (E.withSlots n).Ready σ id c s ws) (hslot : HoldsSlot ⟨n + 1⟩ v s) (hx : E.vars x = some v) :
    (E.withSlots (n + 1)).Ready (σ.define x (.slot ⟨n + 1⟩)) id c s ws :=
  { h with
    slots := by
      intro y r hy
      by_cases hxy : y = x
      · subst hxy
        rw [Scope.lookup?_define_self] at hy
        cases hy
        obtain ⟨i, hi, hv⟩ := hslot
        exact ⟨Nat.le_refl _, i, v, hi, hv, hx⟩
      · rw [Scope.lookup?_define_ne _ _ hxy] at hy
        obtain ⟨hr, hrest⟩ := h.slots y r hy
        exact ⟨Nat.le_succ_of_le hr, hrest⟩ }

/-- The arguments are put into slots, one parameter after the other. -/
theorem parameters_realized {xs : List String} {n : Nat} {σ : Scope Storage} {s : State} {ws : List Write}
    (hs : (E.withSlots n).Ready σ id (parameterCode (n + 1) xs ++ rest) s ws)
    (hxs : ∀ x ∈ xs, ∃ v, E.vars x = some v) : Realizes m answers depth s (.ok ((), ws)) fun _ ws' t =>
      (E.withSlots (n + xs.length)).Ready (parameterScope σ (n + 1) xs) id rest t ws' ∧ Keeps s t 0 [] := by
  induction xs generalizing n σ s with
  | nil => exact .done ⟨hs, .refl _ _ _⟩
  | cons x xs ih =>
    obtain ⟨v, hv⟩ := hxs x List.mem_cons_self
    have hread : s.top.read (.arg x) = some v := by
      have hfunction : s.top.function = E.function := hs.function
      have hargs : s.top.args = E.args := hs.args
      change (s.top.function.params.zip s.top.args).lookup x = some v
      rw [hfunction, hargs]
      exact hv
    obtain ⟨u, t, hu, ht, hready, hk, hslot⟩ := hs.allocate (m := m) (Nat.lt_succ_self n) hread (by simp)
    refine .of_step (hu _) (.of_step (ht _) ?_)
    refine (ih (hready.bind hslot hv) fun y hy => hxs y (List.mem_cons_of_mem _ hy)).mono ?_
    rintro _ ws' t' ⟨ht', hk'⟩
    refine ⟨?_, ((hk 0).below (Nat.le_refl 0) (by simp)).trans hk'⟩
    rw [List.length_cons, Nat.add_comm xs.length, ← Nat.add_assoc]
    exact ht'

end Parameters

section Functions
variable {m : IR.Module} {answers : Nat → Int64} {depth : Nat} {abi : IR.Abi}
  {known : String → Nat → Prop} {call : String → List Int64 → Run Int64} {site : Site} {f : IR.Function}

/-- The machine before a function returns its result. -/
structure Finished (m : IR.Module) (abi : IR.Abi) (callers : List (Reg × IR.Activation)) (memory : List Int64)
    (v : Int64) (ws : List Write) (t : State) : Prop where
  callers : t.callers = callers
  memory : memory <+: t.memory
  trace : List.Forall₂ (KernelCall.Asks abi) t.trace ws
  step : ∀ answer, m.step answer t = t.ret v

/-- A function gets its arguments at its first block. -/
theorem Compiled.activate (hc : Compiled abi known site f) {args : List Int64}
    (hlen : args.length = site.definition.arity) : ∃ a, f.activate args = some a := by
  obtain ⟨root, code, σ, p, -, -, hf⟩ := hc.consists
  unfold IR.Function.activate
  rw [if_pos (by rw [hlen, hc.params]; rfl), hf.blocks]
  exact ⟨_, rfl⟩

/-- A function that consists of code is activated before it. -/
theorem activate_eq {final : Terminator} {c : Code} (hf : f.Consists final c) {args : List Int64}
    {a : IR.Activation} (ha : f.activate args = some a) : args.length = f.params.length ∧
      a = { function := f, args, block := ⟨0⟩, todo := c.instrs, terminator := c.exit final } := by
  unfold IR.Function.activate at ha
  rw [hf.blocks] at ha
  split at ha
  case isTrue hlen => exact ⟨hlen, (Option.some.inj ha).symm⟩
  case isFalse => cases ha

/-- A compiled function realizes its body. -/
theorem Compiled.realized (hc : Compiled abi known site f) (hcalls : CallsRealized m answers abi known depth call)
    {args : List Int64} {a : IR.Activation} (ha : f.activate args = some a)
    {callers : List (Reg × IR.Activation)} {memory : List Int64} {trace : List KernelCall} {ws : List Write}
    (htrace : List.Forall₂ (KernelCall.Asks abi) trace ws) :
    Realizes m answers depth ⟨a, callers, memory, trace⟩
      (Run.last (site.definition.body.map (Expr.meaning answers call (site.definition.variables args))) ws)
      (Finished m abi callers memory) := by
  obtain ⟨root, code, σ, p, hroot, hem, hf⟩ := hc.consists
  obtain ⟨hlen, ha⟩ := activate_eq hf ha
  let E : Setting := ⟨abi, f, args, _, _, hf, 0⟩
  have hvars : ∀ n, (E.withSlots n).vars = site.definition.variables args := by
    intro n
    funext x
    change (f.params.zip args).lookup x = _
    rw [hc.params]
    rfl
  have hready : (E.withSlots 0).Ready root.push ⟨0⟩ (parameterCode (0 + 1) site.definition.params ++ (code ++ []))
      ⟨a, callers, memory, trace⟩ ws := by
    rw [List.append_nil, ha]
    refine ⟨rfl, rfl, rfl, rfl, rfl, ⟨[], rfl, rfl⟩, ?_, htrace⟩
    intro x r hx
    exact absurd hx (hroot.push.no_slot x r)
  have hparams : ∀ x ∈ site.definition.params, ∃ v, E.vars x = some v := by
    intro x hx
    rw [← hc.params] at hx
    exact exists_lookup_zip hlen hx
  have hbound : Realizes m answers depth ⟨a, callers, memory, trace⟩ (.ok ((), ws)) _ :=
    parameters_realized hready hparams
  obtain ⟨n, t, hn, ht, hk⟩ := hbound
  rw [Nat.zero_add] at ht
  have hsim := hem.simulated (E := E.withSlots site.definition.params.length) hcalls
  unfold Piece.Simulated at hsim
  rw [hvars] at hsim
  have hroom : (E.withSlots site.definition.params.length).Room [⟨site.definition.arity + 1⟩]
      ⟨site.definition.arity + 2, 1, 1, ⟨0⟩⟩ :=
    ⟨Nat.lt_add_of_pos_right Nat.two_pos, Nat.zero_lt_one,
      fun r hr => List.mem_singleton.mp hr ▸ ⟨Nat.lt_succ_self _, Nat.lt_succ_self _⟩⟩
  refine .of_run hn ((hsim hroom ht).mono ?_)
  rintro v ws' t' ⟨ht', hk', hv⟩
  refine ⟨hk'.callers.trans hk.callers, hk.memory.trans hk'.memory, ht'.trace, ?_⟩
  intro answer
  rw [IR.Module.step, ht'.todo, ht'.terminator]
  change Terminator.run t' (.ret _) = _
  rw [Terminator.run, show t'.top.read _ = _ from hv.read t'.top.todo]

end Functions

section Programs
variable {abi : IR.Abi} {program : List Expr} {m : IR.Module} {answers : Nat → Int64}

/-- Every call in a compiled module realizes its meaning. -/
theorem CompiledProgram.calls_realized (h : CompiledProgram abi program m) (depth : Nat) :
    CallsRealized m answers abi (Defines program) depth (callMeaning program answers depth) := by
  induction depth with
  | zero => exact fun _ _ _ _ => .tooDeep_zero
  | succ depth ih =>
    intro name args vs dst is s ws hknown htodo hread htrace
    obtain ⟨site, f, hf, hc, hfind, harity⟩ := h.function_of_defines hknown
    obtain ⟨a, ha⟩ := hc.activate harity.symm
    have hstep : m.step (answers s.trace.length) s =
        .running ⟨a, (dst, { s.top with todo := is }) :: s.callers, s.memory, s.trace⟩ := by
      have hread : args.mapM { s.top with todo := is }.read = some vs := hread
      rw [IR.Module.step, htodo]
      simp only [Instr.run, hf, hread, ha]
    rw [callMeaning_succ hfind]
    refine .of_step_succ hstep ((hc.realized ih ha htrace).and_then ?_)
    intro v ws' t ht
    refine .of_step (t := ⟨{ s.top with todo := is }.set dst (.int v), s.callers, t.memory, t.trace⟩) ?_
      (.done ⟨t.memory, t.trace, ht.memory, ht.trace, rfl⟩)
    rw [ht.step, State.ret, ht.callers]

/-- What the run of a machine comes to, by the result of a computation. -/
def Runs (m : IR.Module) (answers : Nat → Int64) (abi : IR.Abi) (depth : Nat) (s : State) :
    Except Halt (Int64 × List Write) → Prop
  | .ok (v, ws) => ∃ n trace, m.run answers n s = .returned v trace ∧ List.Forall₂ (KernelCall.Asks abi) trace ws
  | .error .zeroDivisor => ∃ n, m.run answers n s = .trapped
  | .error .tooDeep => ∃ n t, depth ≤ n ∧ m.run answers n s = .running t
  | .error .illFormed => False

variable (answers) in
/-- A run that starts with a definition does what a call of it means, whatever the depth. -/
theorem CompiledProgram.runs (h : CompiledProgram abi program m) {name : String} {args : List Int64}
    (hd : Defines program name args.length) : ∃ s, m.start? name args = some s ∧
      ∀ depth, Runs m answers abi depth s (callMeaning program answers (depth + 1) name args []) := by
  obtain ⟨site, f, hf, hc, hfind, harity⟩ := h.function_of_defines hd
  obtain ⟨a, ha⟩ := hc.activate harity.symm
  refine ⟨{ top := a }, ?_, fun depth => ?_⟩
  · rw [IR.Module.start?, hf]
    simp only [Option.bind_some, ha, Option.map_some]
  · rw [callMeaning_succ hfind]
    have hr : Realizes m answers depth { top := a } _ (Finished m abi [] []) :=
      hc.realized (h.calls_realized depth) ha .nil
    generalize Run.last _ [] = result at hr ⊢
    match result with
    | .ok (v, ws) =>
      obtain ⟨n, t, hn, ht⟩ := hr
      refine ⟨n + 1, t.trace, ?_, ht.trace⟩
      rw [IR.Module.run_add hn, IR.Module.run_succ, ht.step, State.ret, ht.callers]
    | .error .zeroDivisor | .error .tooDeep | .error .illFormed => exact hr

end Programs
end SmallLisp
