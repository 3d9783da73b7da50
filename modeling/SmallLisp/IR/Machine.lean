import SmallLisp.IR.Basic

/-!
# Running a module

A machine executes one instruction or terminator in each step. Values are tagged, and an instruction
that finds a register undefined or with the wrong tag has no step: the machine is stuck, as it is
where a phi has no entry for the edge taken, or where a block or a function does not exist or gets
the wrong number of arguments. A zero divisor traps.

Sums, differences and products wrap; quotients are cut toward zero and wrap too. Every `alloca` makes
a new slot, and the memory is shared by all activations. The kernel answers inline assembly with an
integer that is not known beforehand.
-/
namespace SmallLisp.IR

inductive Value where
  | int (v : Int64)
  | bit (b : Bool)
  /-- The address of a stack slot. -/
  | slot (index : Nat)
deriving DecidableEq

def BinOp.apply (op : BinOp) (a b : Int64) : Option Int64 :=
  match op with
  | add => some (a + b)
  | sub => some (a - b)
  | mul => some (a * b)
  | sdiv => if b = 0 then none else some (a / b)
  | srem => if b = 0 then none else some (a % b)

def Pred.holds (p : Pred) (a b : Int64) : Bool :=
  match p with
  | slt => a < b
  | sgt => b < a
  | eq => a == b

/-- An executed inline assembly: what it was given, the memory at that moment and the answer. -/
structure KernelCall where
  template : String
  constraints : String
  args : List Int64
  memory : List Int64
  answer : Int64
deriving DecidableEq

structure Activation where
  function : Function
  args : List Int64
  regs : Reg → Option Value := fun _ => none
  block : BlockId
  /-- The block that control came from. -/
  previous : Option BlockId := none
  /-- The instructions of the block that are still to be executed. -/
  todo : List Instr
  terminator : Terminator

namespace Activation

def set (a : Activation) (dst : Reg) (v : Value) : Activation :=
  { a with regs := fun r => if r = dst then some v else a.regs r }

def read (a : Activation) : Operand → Option Int64
  | .reg r =>
    match a.regs r with
    | some (.int v) => some v
    | _ => none
  | .const v => some v
  | .arg param => (a.function.params.zip a.args).lookup param

def enter (a : Activation) (b : Block) : Activation :=
  { a with block := b.id, previous := some a.block, todo := b.instrs, terminator := b.terminator }

end Activation

/-- A function at its start; it must have a block and get as many arguments as it has parameters. -/
def Function.activate (f : Function) (args : List Int64) : Option Activation :=
  if args.length = f.params.length then
    f.blocks.head?.map fun b =>
      { function := f, args, block := b.id, todo := b.instrs, terminator := b.terminator }
  else none

structure State where
  top : Activation
  /-- The suspended callers, each with the register that its call defines. -/
  callers : List (Reg × Activation) := []
  memory : List Int64 := []
  /-- The inline assembly executed so far. -/
  trace : List KernelCall := []

inductive Progress where
  | running (s : State)
  | returned (v : Int64) (trace : List KernelCall)
  | trapped
  | stuck

namespace State

def put (s : State) (dst : Reg) (v : Value) : Progress := .running { s with top := s.top.set dst v }

def ret (s : State) (v : Int64) : Progress :=
  match s.callers with
  | [] => .returned v s.trace
  | (dst, a) :: callers => .running { s with top := a.set dst (.int v), callers }

def jump (s : State) (id : BlockId) : Progress :=
  match s.top.function.block? id with
  | none => .stuck
  | some b => .running { s with top := s.top.enter b }

end State

/-- Executes an instruction that is no longer among those to be executed. -/
def Instr.run (m : Module) (answer : Int64) (s : State) : Instr → Progress
  | binary dst op lhs rhs =>
    match s.top.read lhs, s.top.read rhs with
    | some a, some b =>
      match op.apply a b with
      | some v => s.put dst (.int v)
      | none => .trapped
    | _, _ => .stuck
  | icmp dst pred lhs rhs =>
    match s.top.read lhs, s.top.read rhs with
    | some a, some b => s.put dst (.bit (pred.holds a b))
    | _, _ => .stuck
  | zext dst src =>
    match s.top.regs src with
    | some (.bit b) => s.put dst (.int (if b then 1 else 0))
    | _ => .stuck
  | alloca dst => { s with memory := s.memory ++ [0] }.put dst (.slot s.memory.length)
  | store value ptr =>
    match s.top.read value, s.top.regs ptr with
    | some v, some (.slot i) =>
      if i < s.memory.length then .running { s with memory := s.memory.set i v } else .stuck
    | _, _ => .stuck
  | load dst ptr =>
    match s.top.regs ptr with
    | some (.slot i) =>
      match s.memory[i]? with
      | some v => s.put dst (.int v)
      | none => .stuck
    | _ => .stuck
  | ptrToInt dst ptr =>
    match s.top.regs ptr with
    | some (.slot i) => s.put dst (.int (.ofNat i))
    | _ => .stuck
  | call dst callee args =>
    match m.function? callee, args.mapM s.top.read with
    | some f, some vs =>
      match f.activate vs with
      | some a => .running { s with top := a, callers := (dst, s.top) :: s.callers }
      | none => .stuck
    | _, _ => .stuck
  | asm dst template constraints args =>
    match args.mapM s.top.read with
    | some vs =>
      let entry : KernelCall := { template, constraints, args := vs, memory := s.memory, answer }
      { s with trace := s.trace ++ [entry] }.put dst (.int answer)
    | none => .stuck
  | phi dst incoming =>
    match incoming.find? fun (_, source) => s.top.previous == some source with
    | some (v, _) =>
      match s.top.read v with
      | some a => s.put dst (.int a)
      | none => .stuck
    | none => .stuck

def Terminator.run (s : State) : Terminator → Progress
  | ret v =>
    match s.top.read v with
    | some a => s.ret a
    | none => .stuck
  | br dest => s.jump dest
  | condBr cond yes no =>
    match s.top.regs cond with
    | some (.bit b) => s.jump (if b then yes else no)
    | _ => .stuck

namespace Module

/-- One step; `answer` is what the kernel answers if the step executes inline assembly. -/
def step (m : Module) (answer : Int64) (s : State) : Progress :=
  match s.top.todo with
  | [] => s.top.terminator.run s
  | i :: is => i.run m answer { s with top := { s.top with todo := is } }

/-- At most `n` steps, where the kernel gives the answers `answers` one after the other. -/
def run (m : Module) (answers : Nat → Int64) : Nat → State → Progress
  | 0, s => .running s
  | n + 1, s =>
    match m.step (answers s.trace.length) s with
    | .running t => m.run answers n t
    | result => result

def start? (m : Module) (name : String) (args : List Int64) : Option State :=
  (m.function? name).bind fun f => (f.activate args).map fun a => { top := a }

/-- The run of a function on arguments ends with a value, having executed `trace`. -/
def Returns (m : Module) (answers : Nat → Int64) (name : String) (args : List Int64) (v : Int64)
    (trace : List KernelCall) : Prop :=
  ∃ s n, m.start? name args = some s ∧ m.run answers n s = .returned v trace

/-- The run of a function on arguments ends at a zero divisor. -/
def Traps (m : Module) (answers : Nat → Int64) (name : String) (args : List Int64) : Prop :=
  ∃ s n, m.start? name args = some s ∧ m.run answers n s = .trapped

section Runs
variable (m : Module) (answers : Nat → Int64)

theorem run_succ (n : Nat) (s : State) : m.run answers (n + 1) s =
    match m.step (answers s.trace.length) s with
    | .running t => m.run answers n t
    | result => result := rfl

variable {m answers}

/-- A run goes on from where a shorter run led. -/
theorem run_add {n : Nat} {s t : State} (h : m.run answers n s = .running t) (k : Nat) :
    m.run answers (n + k) s = m.run answers k t := by
  induction n generalizing s with
  | zero =>
    cases h
    rw [Nat.zero_add]
  | succ n ih =>
    rw [Nat.succ_add, run_succ]
    rw [run_succ] at h
    cases hs : m.step (answers s.trace.length) s with
    | running u =>
      rw [hs] at h
      exact ih h
    | returned _ _ | trapped | stuck =>
      rw [hs] at h
      cases h

/-- A finished run stays as it is when it is given more steps. -/
theorem run_of_le {n k : Nat} {s : State} (hn : ∀ t, m.run answers n s ≠ .running t) (hk : n ≤ k) :
    m.run answers k s = m.run answers n s := by
  induction n generalizing s k with
  | zero => exact absurd rfl (hn s)
  | succ n ih =>
    obtain ⟨k, rfl⟩ : ∃ j, k = j + 1 := ⟨k - 1, by omega⟩
    rw [run_succ, run_succ]
    rw [run_succ] at hn
    cases hs : m.step (answers s.trace.length) s with
    | running u =>
      rw [hs] at hn
      exact ih hn (by omega)
    | returned _ _ | trapped | stuck => rfl

/-- Two finished runs from one state end alike. -/
theorem run_unique {n k : Nat} {s : State} (hn : ∀ t, m.run answers n s ≠ .running t)
    (hk : ∀ t, m.run answers k s ≠ .running t) : m.run answers n s = m.run answers k s := by
  rcases Nat.le_total n k with h | h
  · exact (run_of_le hn h).symm
  · exact run_of_le hk h

end Runs
end Module
end SmallLisp.IR
