import SmallLisp.Proofs.Emission
import SmallLisp.Proofs.Realization

/-! # Steps of a machine through code

While a function is executed the machine stands at a place in its code, and the slots of the scope hold
the values of variables. One step of each kind leads to the next place; what it leaves alone is recorded,
so that results that were computed before are found again.
-/
namespace SmallLisp
open IR (Reg BlockId Operand Instr Item Code State Terminator)

/-- An activation of a function that consists of code. -/
structure Setting where
  abi : IR.Abi
  function : IR.Function
  args : List Int64
  final : Terminator
  code : Code
  consists : function.Consists final code
  /-- Slots of variables are in registers up to this one. -/
  slots : Nat

/-- What a part of a run leaves alone: the callers, the memory there was, and the registers up to a limit
except those given. -/
structure Keeps (s t : State) (limit : Nat) (targets : List Reg) : Prop where
  callers : t.callers = s.callers
  memory : s.memory <+: t.memory
  regs : ∀ r, r.index < limit → r ∉ targets → t.top.regs r = s.top.regs r

namespace Keeps
variable {s t u : State} {limit limit' : Nat} {targets : List Reg}

theorem refl (s : State) (limit : Nat) (targets : List Reg) : Keeps s s limit targets :=
  ⟨rfl, List.prefix_refl _, fun _ _ _ => rfl⟩

/-- Two parts one after the other, of which the first leaves everything below the limit alone. -/
theorem trans (h : Keeps s t limit []) (h' : Keeps t u limit targets) : Keeps s u limit targets where
  callers := h'.callers.trans h.callers
  memory := h.memory.trans h'.memory
  regs r hr hn := (h'.regs r hr hn).trans (h.regs r hr List.not_mem_nil)

/-- Registers beyond a limit are of no concern below it. -/
theorem below (h : Keeps s t limit targets) (hl : limit' ≤ limit) (ht : ∀ r ∈ targets, limit' ≤ r.index) :
    Keeps s t limit' [] where
  callers := h.callers
  memory := h.memory
  regs r hr _ := h.regs r (Nat.lt_of_lt_of_le hr hl) fun hm => Nat.lt_irrefl _ (Nat.lt_of_lt_of_le hr (ht r hm))

theorem mono (h : Keeps s t limit targets) (hl : limit' ≤ limit) : Keeps s t limit' targets :=
  { h with regs := fun r hr => h.regs r (Nat.lt_of_lt_of_le hr hl) }

/-- A cell of the memory that there was. -/
theorem memory_eq (h : Keeps s t limit targets) {i : Nat} {v : Int64} (hi : s.memory[i]? = some v) :
    t.memory[i]? = some v := by
  obtain ⟨rest, hrest⟩ := h.memory
  obtain ⟨hlt, -⟩ := List.getElem?_eq_some_iff.mp hi
  rw [← hrest, List.getElem?_append_left hlt, hi]

end Keeps

namespace Setting

def vars (E : Setting) (x : String) : Option Int64 := (E.function.params.zip E.args).lookup x

def HasBlock (E : Setting) (id : BlockId) (d : Code) : Prop :=
  ∃ before t label, E.code = before ++ .next t id label :: d

/-- The machine stands before `c` in a block `id`, having written `ws`. -/
structure Ready (E : Setting) (σ : Scope Storage) (id : BlockId) (c : Code) (s : State)
    (ws : List Write) : Prop where
  function : s.top.function = E.function
  args : s.top.args = E.args
  block : s.top.block = id
  todo : s.top.todo = c.instrs
  terminator : s.top.terminator = c.exit E.final
  place : ∃ before, E.code = before ++ c ∧ before.last ⟨0⟩ = id
  slots : ∀ x r, σ.lookup? x = some (.slot r) → r.index ≤ E.slots ∧
    ∃ i v, s.top.regs r = some (.slot i) ∧ s.memory[i]? = some v ∧ E.vars x = some v
  trace : List.Forall₂ (KernelCall.Asks E.abi) s.trace ws

namespace Ready
variable {E : Setting} {σ σ' : Scope Storage} {id : BlockId} {c : Code} {s : State} {ws : List Write}

/-- A scope that has the same slots. -/
theorem scope (h : E.Ready σ id c s ws)
    (hσ : ∀ x r, σ'.lookup? x = some (.slot r) → σ.lookup? x = some (.slot r)) : E.Ready σ' id c s ws :=
  { h with slots := fun x r hx => h.slots x r (hσ x r hx) }

/-- The machine after an instruction that leaves the slots of variables alone. -/
theorem after {i : Instr} (h : E.Ready σ id (.instr i :: c) s ws) {t : State} {ws' : List Write}
    (htop : t.top = { s.top with todo := c.instrs, regs := t.top.regs })
    (hregs : ∀ r, r.index ≤ E.slots → t.top.regs r = s.top.regs r) (hmem : s.memory <+: t.memory)
    (htrace : List.Forall₂ (KernelCall.Asks E.abi) t.trace ws') : E.Ready σ id c t ws' where
  function := by rw [htop]; exact h.function
  args := by rw [htop]; exact h.args
  block := by rw [htop]; exact h.block
  todo := by rw [htop]
  terminator := by rw [htop]; exact h.terminator
  place := by
    obtain ⟨before, hcode, hlast⟩ := h.place
    exact ⟨before ++ [.instr i], by simp [hcode], by simp [hlast]⟩
  slots x r hx := by
    obtain ⟨hr, j, v, hj, hv, hx⟩ := h.slots x r hx
    obtain ⟨rest, hrest⟩ := hmem
    obtain ⟨hlt, -⟩ := List.getElem?_eq_some_iff.mp hv
    exact ⟨hr, j, v, (hregs r hr).trans hj, by rw [← hrest, List.getElem?_append_left hlt, hv], hx⟩
  trace := htrace

/-- One step of an instruction that defines a register. -/
theorem put {m : IR.Module} {i : Instr} (h : E.Ready σ id (.instr i :: c) s ws) {r : Reg}
    {v : IR.Value} (hr : E.slots < r.index)
    (hrun : ∀ answer, i.run m answer { s with top := { s.top with todo := c.instrs } } =
      State.put { s with top := { s.top with todo := c.instrs } } r v) :
    ∃ t, (∀ answer, m.step answer s = .running t) ∧ E.Ready σ id c t ws ∧ (∀ limit, Keeps s t limit [r]) ∧
      t.top.regs r = some v := by
  refine ⟨{ s with top := { s.top with todo := c.instrs }.set r v }, ?_, ?_, ?_, ?_⟩
  · intro answer
    rw [IR.Module.step, h.todo]
    exact hrun answer
  · refine h.after rfl (fun r' hr' => if_neg ?_) (List.prefix_refl _) h.trace
    rintro rfl
    omega
  · exact fun _ => ⟨rfl, List.prefix_refl _, fun r' _ hn => if_neg (by simpa using hn)⟩
  · exact if_pos rfl

/-- One step of a phi, by the block that control came from. -/
theorem phi {m : IR.Module} {r : Reg} {incoming : List (Operand × BlockId)} {value : Operand}
    {source : BlockId} {v : Int64} (h : E.Ready σ id (.instr (.phi r incoming) :: c) s ws)
    (hr : E.slots < r.index) (hprev : s.top.previous = some source)
    (hfind : incoming.find? (source == ·.2) = some (value, source))
    (hv : { s.top with todo := c.instrs }.read value = some v) :
    ∃ t, (∀ answer, m.step answer s = .running t) ∧ E.Ready σ id c t ws ∧ (∀ limit, Keeps s t limit [r]) ∧
      t.top.regs r = some (.int v) := by
  refine h.put hr fun answer => ?_
  have hsource : (fun (x : Operand × BlockId) => s.top.previous == some x.2) = (source == ·.2) := by
    rw [hprev]
    rfl
  simp only [Instr.run, hsource, hfind, hv]

theorem hasBlock {t : Terminator} {next : BlockId} {label : String} (between : Code) {d : Code}
    (h : E.Ready σ id (between ++ .next t next label :: d) s ws) : E.HasBlock next d := by
  obtain ⟨before, hcode, -⟩ := h.place
  exact ⟨before ++ between, t, label, by rw [hcode, List.append_assoc]⟩

/-- Going to a block of the code. -/
theorem jump (h : E.Ready σ id c s ws) {next : BlockId} {d : Code} (hd : E.HasBlock next d) :
    ∃ t, s.jump next = .running t ∧ E.Ready σ next d t ws ∧ (∀ limit, Keeps s t limit []) ∧
      t.top.previous = some id := by
  obtain ⟨before, t, label, hcode⟩ := hd
  have hc := E.consists
  rw [hcode] at hc
  refine ⟨{ s with top := s.top.enter ⟨next, label, d.instrs, d.exit E.final⟩ }, ?_, ?_, ?_, ?_⟩
  · rw [State.jump, h.function, hc.block?]
  · refine ⟨h.function, h.args, rfl, rfl, rfl, ⟨before ++ [.next t next label], by simp [hcode], by simp⟩,
      ?_, h.trace⟩
    exact h.slots
  · exact fun _ => ⟨rfl, List.prefix_refl _, fun _ _ _ => rfl⟩
  · exact congrArg some h.block

theorem br {m : IR.Module} {next end' : BlockId} {label : String} {d : Code}
    (h : E.Ready σ id (.next (.br next) end' label :: c) s ws) (hd : E.HasBlock next d) :
    ∃ t, (∀ answer, m.step answer s = .running t) ∧ E.Ready σ next d t ws ∧ (∀ limit, Keeps s t limit []) ∧
      t.top.previous = some id := by
  obtain ⟨t, ht, hready, hk, hprev⟩ := h.jump hd
  refine ⟨t, fun answer => ?_, hready, hk, hprev⟩
  rw [IR.Module.step, h.todo, h.terminator]
  exact ht

theorem condBr {m : IR.Module} {cond : Reg} {b : Bool} {yes no next : BlockId}
    {label : String} {d : Code} (h : E.Ready σ id (.next (.condBr cond yes no) next label :: c) s ws)
    (hcond : s.top.regs cond = some (.bit b)) (hd : E.HasBlock (if b then yes else no) d) :
    ∃ t, (∀ answer, m.step answer s = .running t) ∧ E.Ready σ (if b then yes else no) d t ws ∧
      (∀ limit, Keeps s t limit []) ∧
      t.top.previous = some id := by
  obtain ⟨t, ht, hready, hk, hprev⟩ := h.jump hd
  refine ⟨t, fun answer => ?_, hready, hk, hprev⟩
  rw [IR.Module.step, h.todo, h.terminator]
  change Terminator.run s (.condBr cond yes no) = _
  rw [Terminator.run, hcond]
  exact ht

/-- A value is put into a new slot in two steps. -/
theorem allocate {m : IR.Module} {slot : Reg} {value : Operand} {v : Int64}
    (h : E.Ready σ id (.instr (.alloca slot) :: .instr (.store value slot) :: c) s ws)
    (hslot : E.slots < slot.index) (hv : s.top.read value = some v) (hne : value ≠ .reg slot) :
    ∃ u t, (∀ answer, m.step answer s = .running u) ∧ (∀ answer, m.step answer u = .running t) ∧
      E.Ready σ id c t ws ∧ (∀ limit, Keeps s t limit [slot]) ∧
      ∃ i, t.top.regs slot = some (.slot i) ∧ t.memory[i]? = some v := by
  let top : IR.Activation := { s.top with todo := .store value slot :: c.instrs }.set slot (.slot s.memory.length)
  have hread : { top with todo := c.instrs }.read value = some v := by
    cases value with
    | reg r =>
      have hr : r ≠ slot := fun he => hne (congrArg _ he)
      simpa [top, IR.Activation.read, IR.Activation.set, hr] using hv
    | const _ | arg _ => exact hv
  have hptr : top.regs slot = some (.slot s.memory.length) := if_pos rfl
  refine ⟨{ s with top, memory := s.memory ++ [0] },
    { s with top := { top with todo := c.instrs }, memory := s.memory ++ [v] }, ?_, ?_, ?_, ?_, ?_⟩
  · intro answer
    rw [IR.Module.step, h.todo]
    rfl
  · intro answer
    change Instr.run m answer ⟨{ top with todo := c.instrs }, s.callers, s.memory ++ [0], s.trace⟩
      (.store value slot) = _
    simp [Instr.run, hread, hptr]
  · have hcode : E.Ready σ id (.instr (.store value slot) :: c)
        { s with top := { s.top with todo := Code.instrs (.instr (.store value slot) :: c) } } ws :=
      h.after rfl (fun _ _ => rfl) (List.prefix_refl _) h.trace
    refine hcode.after rfl (fun r hr => if_neg ?_) (List.prefix_append _ _) h.trace
    rintro rfl
    omega
  · exact fun _ => ⟨rfl, List.prefix_append _ _, fun r _ hn => if_neg (by simpa using hn)⟩
  · exact ⟨s.memory.length, hptr, by simp⟩

end Ready
end Setting
end SmallLisp
