import Mathlib.Data.List.Sort
import SmallLisp.Proofs.CodeSteps
import SmallLisp.Proofs.ControlFlow

/-! # The order of a run

An activation of a compiled function goes through its code in the order of the layout, whatever the functions
do that it calls, for control only goes forward. So it comes to every place at most once. What a run does
does not depend on the callers that wait for it, which gives the order for an activation under any callers.
-/
namespace SmallLisp
open IR (Reg BlockId Operand Instr Item Code State Terminator Activation)

namespace IR

/-! ## Paths -/

/-- Where an activation stands: its block, and what it has still to execute of the block. -/
abbrev Place := BlockId × List Instr

def Activation.place (a : Activation) : Place := (a.block, a.todo)

/-- The places where the first `n` steps of a run are made by an activation that has `depth` callers. -/
def Module.path (m : Module) (answers : Nat → Int64) (depth : Nat) : Nat → State → List Place
  | 0, _ => []
  | n + 1, s =>
    let rest := match m.step (answers s.trace.length) s with
      | .running t => m.path answers depth n t
      | _ => []
    if s.callers.length = depth then s.top.place :: rest else rest

def Activation.bottom : Activation → List (Reg × Activation) → Activation
  | a, [] => a
  | _, (_, caller) :: callers => caller.bottom callers

def State.bottom (s : State) : Activation := s.top.bottom s.callers

theorem State.bottom_of_nil {s : State} (h : s.callers = []) : s.bottom = s.top := by
  rw [State.bottom, h]
  rfl

theorem State.bottom_of_cons {s : State} {dst : Reg} {a : Activation} {callers : List (Reg × Activation)}
    (h : s.callers = (dst, a) :: callers) : s.bottom = a.bottom callers := by
  rw [State.bottom, h]
  rfl

def State.above (s : State) (callers : List (Reg × Activation)) : State :=
  { s with callers := s.callers ++ callers }

def Progress.above (callers : List (Reg × Activation)) : Progress → Progress
  | .running s => .running (s.above callers)
  | p => p

inductive Moves (s : State) : State → Prop
  | advance {i : Instr} {is : List Instr} {t : State} (htodo : s.top.todo = i :: is)
      (htop : t.top = { s.top with todo := is, regs := t.top.regs }) (hcallers : t.callers = s.callers) : Moves s t
  | call {i : Instr} {is : List Instr} {dst : Reg} {t : State} (htodo : s.top.todo = i :: is)
      (hcallers : t.callers = (dst, { s.top with todo := is }) :: s.callers) : Moves s t
  | jump {id : BlockId} {b : Block} {t : State} (htodo : s.top.todo = []) (hid : id ∈ s.top.terminator.successors)
      (hblock : s.top.function.block? id = some b) (htop : t.top = s.top.enter b)
      (hcallers : t.callers = s.callers) : Moves s t
  | ret {dst : Reg} {a : Activation} {v : Value} {t : State} (hcallers : s.callers = (dst, a) :: t.callers)
      (htop : t.top = a.set dst v) : Moves s t

section Steps
variable {m : Module} {answer : Int64} {s t : State}

theorem moves_of_put {dst : Reg} {v : Value} {i : Instr} {is : List Instr} {memory : List Int64}
    {trace : List KernelCall} (htodo : s.top.todo = i :: is)
    (h : State.put ⟨{ s.top with todo := is }, s.callers, memory, trace⟩ dst v = .running t) : Moves s t := by
  cases h
  exact .advance htodo rfl rfl

theorem moves_of_jump {id : BlockId} (htodo : s.top.todo = []) (hid : id ∈ s.top.terminator.successors)
    (h : s.jump id = .running t) : Moves s t := by
  unfold State.jump at h
  cases hb : s.top.function.block? id with
  | none => simp [hb] at h
  | some b =>
    rw [hb] at h
    cases h
    exact .jump htodo hid hb rfl rfl

theorem moves_of_terminator (htodo : s.top.todo = []) (h : s.top.terminator.run s = .running t) : Moves s t := by
  cases ht : s.top.terminator with
  | ret v =>
    rw [ht, Terminator.run] at h
    cases hv : s.top.read v with
    | none => simp [hv] at h
    | some w =>
      simp only [hv, State.ret] at h
      cases hc : s.callers with
      | nil => simp [hc] at h
      | cons c callers =>
        rw [hc] at h
        cases h
        exact .ret hc rfl
  | br id =>
    rw [ht] at h
    exact moves_of_jump htodo (by simp [ht, Terminator.successors]) h
  | condBr cond yes no =>
    rw [ht, Terminator.run] at h
    split at h
    · refine moves_of_jump htodo ?_ h
      rw [ht]
      simp only [Terminator.successors]
      split <;> simp
    · cases h

theorem moves_of_instr {i : Instr} {is : List Instr} (htodo : s.top.todo = i :: is)
    (h : i.run m answer { s with top := { s.top with todo := is } } = .running t) : Moves s t := by
  cases i with
  | binary dst op lhs rhs =>
    simp only [Instr.run] at h
    split at h
    · split at h
      · exact moves_of_put htodo h
      · cases h
    · cases h
  | icmp | zext | ptrToInt =>
    simp only [Instr.run] at h
    split at h
    · exact moves_of_put htodo h
    · cases h
  | alloca => exact moves_of_put htodo h
  | store =>
    simp only [Instr.run] at h
    split at h
    · split at h
      · cases h
        exact .advance htodo rfl rfl
      · cases h
    · cases h
  | load | phi =>
    simp only [Instr.run] at h
    split at h
    · split at h
      · exact moves_of_put htodo h
      · cases h
    · cases h
  | asm =>
    simp only [Instr.run] at h
    split at h
    · exact moves_of_put htodo h
    · cases h
  | call =>
    simp only [Instr.run] at h
    split at h
    · split at h
      · cases h
        exact .call htodo rfl
      · cases h
    · cases h

theorem moves_of_step (h : m.step answer s = .running t) : Moves s t := by
  unfold Module.step at h
  split at h
  · exact moves_of_terminator ‹_› h
  · exact moves_of_instr ‹_› h

end Steps

/-! ## More callers -/

section Callers
variable {m : Module} {answers : Nat → Int64} {answer : Int64} {s t : State} (callers : List (Reg × Activation))

theorem instr_run_above (i : Instr) : i.run m answer (s.above callers) = (i.run m answer s).above callers := by
  cases i with
  | alloca => rfl
  | binary | load | phi | call =>
    simp only [Instr.run, State.above]
    split
    · split <;> rfl
    · rfl
  | store =>
    simp only [Instr.run, State.above]
    split
    · rw [apply_ite (Progress.above callers)]
      rfl
    · rfl
  | icmp | zext | ptrToInt | asm =>
    simp only [Instr.run, State.above]
    split <;> rfl

theorem jump_above (id : BlockId) : (s.above callers).jump id = (s.jump id).above callers := by
  simp only [State.jump, State.above]
  split <;> rfl

/-- A step that does not return to a caller below is made above any callers. -/
theorem step_above (h : ∀ v trace, m.step answer s ≠ .returned v trace) :
    m.step answer (s.above callers) = (m.step answer s).above callers := by
  have htop : (s.above callers).top = s.top := rfl
  unfold Module.step at h ⊢
  rw [htop]
  cases htodo : s.top.todo with
  | cons i is => exact instr_run_above (s := { s with top := { s.top with todo := is } }) callers i
  | nil =>
    simp only [htodo] at h ⊢
    cases ht : s.top.terminator with
    | ret v =>
      rw [ht] at h
      simp only [Terminator.run] at h ⊢
      cases hv : s.top.read v with
      | none => simp [State.above, hv, Progress.above]
      | some w =>
        simp only [hv, State.ret] at h
        cases hc : s.callers with
        | nil => simp [hc] at h
        | cons c rest => simp [State.above, hv, State.ret, hc, Progress.above]
    | br id => exact jump_above callers id
    | condBr cond yes no =>
      simp only [Terminator.run, htop]
      split
      · exact jump_above callers _
      · rfl

theorem run_above {n : Nat} (h : m.run answers n s = .running t) :
    m.run answers n (s.above callers) = .running (t.above callers) := by
  induction n generalizing s with
  | zero =>
    cases h
    rfl
  | succ n ih =>
    rw [Module.run_succ] at h ⊢
    change (match m.step (answers s.trace.length) (s.above callers) with
      | .running u => m.run answers n u
      | result => result) = _
    cases hs : m.step (answers s.trace.length) s with
    | running u =>
      rw [hs] at h
      rw [step_above callers (by simp [hs]), hs]
      exact ih h
    | returned | trapped | stuck =>
      rw [hs] at h
      cases h

theorem path_above {n depth : Nat} (h : m.run answers n s = .running t) :
    m.path answers (depth + callers.length) n (s.above callers) = m.path answers depth n s := by
  induction n generalizing s with
  | zero => rfl
  | succ n ih =>
    rw [Module.run_succ] at h
    cases hs : m.step (answers s.trace.length) s with
    | running u =>
      rw [hs] at h
      have hstep : m.step (answers (s.above callers).trace.length) (s.above callers) = .running (u.above callers) := by
        change m.step (answers s.trace.length) _ = _
        rw [step_above callers (by simp [hs]), hs]
        rfl
      simp only [Module.path, hstep, hs, ih h]
      simp [State.above]
    | returned | trapped | stuck =>
      rw [hs] at h
      cases h

end Callers

section Parts
variable {m : Module} {answers : Nat → Int64} {s t : State}

/-- The path of a run in two parts. -/
theorem path_add {n depth : Nat} (h : m.run answers n s = .running t) (k : Nat) :
    m.path answers depth (n + k) s = m.path answers depth n s ++ m.path answers depth k t := by
  induction n generalizing s with
  | zero =>
    cases h
    rw [Nat.zero_add]
    rfl
  | succ n ih =>
    rw [Module.run_succ] at h
    rw [Nat.succ_add]
    cases hs : m.step (answers s.trace.length) s with
    | running u =>
      rw [hs] at h
      simp only [Module.path, hs, ih h]
      split <;> rfl
    | returned | trapped | stuck =>
      rw [hs] at h
      cases h

theorem place_mem_path {n : Nat} (hn : n ≠ 0) : s.top.place ∈ m.path answers s.callers.length n s := by
  obtain ⟨n, rfl⟩ := Nat.exists_eq_succ_of_ne_zero hn
  simp [Module.path]

end Parts

/-! ## Places in code -/

namespace Code
variable {b c d : Code} {id : BlockId}

theorem exists_of_mem_ids (h : id ∈ ids c) : ∃ before t label d, c = before ++ .next t id label :: d := by
  obtain ⟨item, hitem, hid⟩ := List.mem_filterMap.mp h
  obtain ⟨before, d, hsplit⟩ := List.append_of_mem hitem
  cases item with
  | instr i => cases hid
  | next t id' label =>
    cases hid
    exact ⟨before, t, label, d, hsplit⟩

theorem Forward.of_append (h : Forward (b ++ c)) : Forward c := by
  induction b with
  | nil => exact h
  | cons item b ih =>
    cases item with
    | instr i => exact ih h
    | next t id label => exact ih h.2.2

theorem ids_eq_nil_or_last_mem (id : BlockId) (c : Code) : ids c = [] ∨ last id c ∈ ids c := by
  induction c generalizing id with
  | nil => exact .inl rfl
  | cons item c ih =>
    cases item with
    | instr i => exact ih id
    | next t target label =>
      right
      rcases last_mem target c with h | h
      · exact List.mem_cons.mpr (.inl h)
      · exact List.mem_cons_of_mem _ h

theorem length_instrs_append (h : ids c = []) : (c ++ d).instrs.length = c.length + d.instrs.length := by
  induction c with
  | nil => exact (Nat.zero_add _).symm
  | cons item c ih =>
    cases item with
    | instr i =>
      change (instrs (c ++ d)).length + 1 = c.length + 1 + d.instrs.length
      rw [ih h]
      omega
    | next t id label => cases h

/-- Code that leads to the place that it starts from is empty. -/
theorem eq_nil_of_place (hid : id ∉ ids c) (hlast : last id c = id) (hinstrs : (c ++ d).instrs = d.instrs) :
    c = [] := by
  rcases ids_eq_nil_or_last_mem id c with h | h
  · have hlength := length_instrs_append (d := d) h
    rw [hinstrs] at hlength
    exact List.length_eq_zero_iff.mp (by omega)
  · rw [hlast] at h
    exact absurd h hid

theorem eq_of_place_of_append (hdistinct : (⟨0⟩ :: ids (b ++ (c ++ d))).Nodup)
    (hlast : last ⟨0⟩ b = last ⟨0⟩ (b ++ c)) (hinstrs : (c ++ d).instrs = d.instrs) : c = [] := by
  rw [last_append] at hlast
  refine eq_nil_of_place ?_ hlast.symm hinstrs
  simp only [ids_append, List.nodup_cons, List.nodup_append, List.mem_append, not_or] at hdistinct
  rcases last_mem ⟨0⟩ b with h | h
  · rw [h]
    exact hdistinct.1.2.1
  · exact fun hm => hdistinct.2.2.2 _ h _ (.inl hm) rfl

/-- Blocks are those of one code only. -/
theorem eq_of_blocks {final final' : Terminator} (hinstrs : c.instrs = d.instrs)
    (hexit : c.exit final = d.exit final') (hlater : c.later final = d.later final') : c = d ∧ final = final' := by
  induction c generalizing d with
  | nil =>
    match d with
    | [] => exact ⟨rfl, hexit⟩
    | .instr _ :: _ => cases hinstrs
    | .next _ _ _ :: _ => cases hlater
  | cons item c ih =>
    match item, d with
    | .instr _, [] | .instr _, .next _ _ _ :: _ | .next _ _ _, .instr _ :: _ => cases hinstrs
    | .next _ _ _, [] => cases hlater
    | .instr i, .instr j :: d =>
      obtain ⟨hij, htail⟩ := List.cons.inj hinstrs
      obtain ⟨hcd, hfinal⟩ := ih htail hexit hlater
      exact ⟨by rw [hij, hcd], hfinal⟩
    | .next t id label, .next t' id' label' :: d =>
      obtain ⟨hblock, hrest⟩ := List.cons.inj hlater
      obtain ⟨hid, hlabel, htail, hend⟩ := Block.mk.inj hblock
      obtain ⟨hcd, hfinal⟩ := ih htail hend hrest
      have ht : t = t' := hexit
      exact ⟨by rw [ht, hid, hlabel, hcd], hfinal⟩

end Code
end IR

namespace Setting
variable {E : Setting} {c d : Code} {x y : IR.Place}

variable (E) in
/-- The place before `c`, which the code of the setting ends with. -/
def Marks (c : Code) (x : IR.Place) : Prop := ∃ before, E.code = before ++ c ∧ x = (before.last ⟨0⟩, c.instrs)

variable (E) in
def Precedes (x y : IR.Place) : Prop := ∃ c d, E.Marks c x ∧ E.Marks d y ∧ d.length < c.length

theorem Marks.unique (hc : E.Marks c x) (hd : E.Marks d x) : c = d := by
  obtain ⟨b₁, hb₁, rfl⟩ := hc
  obtain ⟨b₂, hb₂, hx⟩ := hd
  obtain ⟨hlast, hinstrs⟩ := Prod.mk.inj hx
  have hdistinct := E.consists.distinct
  rw [hb₁] at hdistinct
  rcases List.append_eq_append_iff.mp (hb₁.symm.trans hb₂) with ⟨e, rfl, rfl⟩ | ⟨e, rfl, rfl⟩
  · rw [IR.Code.eq_of_place_of_append hdistinct hlast hinstrs]
    rfl
  · rw [List.append_assoc] at hdistinct
    rw [IR.Code.eq_of_place_of_append hdistinct hlast.symm hinstrs.symm]
    rfl

theorem Precedes.asymm (h : E.Precedes x y) : ¬ E.Precedes y x := by
  rintro ⟨d', c', hd', hc', hlt'⟩
  obtain ⟨c, d, hc, hd, hlt⟩ := h
  rw [hc.unique hc', hd.unique hd'] at hlt
  omega

variable (E) in
structure Stands (c : Code) (a : Activation) : Prop where
  function : a.function = E.function
  terminator : a.terminator = c.exit E.final
  place : E.Marks c a.place

theorem Ready.stands {σ : Scope Storage} {id : BlockId} {s : State} {ws : List Write} (h : E.Ready σ id c s ws) :
    E.Stands c s.top where
  function := h.function
  terminator := h.terminator
  place := by
    obtain ⟨before, hcode, hlast⟩ := h.place
    refine ⟨before, hcode, ?_⟩
    rw [Activation.place, h.block, h.todo, hlast]

variable (E) in
structure Forward : Prop where
  code : E.code.Forward
  final : E.final.successors = []

section Order
variable {m : IR.Module} {answers : Nat → Int64} {answer : Int64} {s t : State} {a : Activation}

/-- An activation that ends its block goes on further behind. -/
theorem Stands.jump (hE : E.Forward) (h : E.Stands c a) (htodo : a.todo = []) {id : BlockId} {b : IR.Block}
    (hid : id ∈ a.terminator.successors) (hb : a.function.block? id = some b) :
    ∃ d, E.Stands d (a.enter b) ∧ d.length < c.length := by
  obtain ⟨before, hcode, hplace⟩ := h.place
  obtain ⟨-, hinstrs⟩ := Prod.mk.inj hplace
  rw [h.terminator] at hid
  match c with
  | [] =>
    change id ∈ E.final.successors at hid
    rw [hE.final] at hid
    cases hid
  | .instr i :: c =>
    rw [htodo] at hinstrs
    cases hinstrs
  | .next t next label :: c =>
    have hforward := hE.code
    rw [hcode] at hforward
    have hmem : id ∈ IR.Code.ids (.next t next label :: c) := hforward.of_append.2.1 id hid
    obtain ⟨between, t', label', d, hsplit⟩ := IR.Code.exists_of_mem_ids hmem
    have hconsists := E.consists
    rw [hcode, hsplit, ← List.append_assoc] at hconsists
    rw [h.function, hconsists.block?] at hb
    cases hb
    refine ⟨d, ⟨h.function, rfl, before ++ between ++ [.next t' id label'], ?_, ?_⟩, ?_⟩
    · rw [hcode, hsplit]
      simp
    · simp [Activation.place, Activation.enter]
    · rw [hsplit]
      simp
      omega

theorem Stands.advance (h : E.Stands c a) {i : Instr} {is : List Instr} (htodo : a.todo = i :: is)
    (regs : Reg → Option IR.Value) :
    ∃ d, E.Stands d { a with todo := is, regs } ∧ d.length < c.length := by
  obtain ⟨before, hcode, hplace⟩ := h.place
  obtain ⟨hblock, hinstrs⟩ := Prod.mk.inj hplace
  rw [htodo] at hinstrs
  match c with
  | [] | .next _ _ _ :: _ => cases hinstrs
  | .instr j :: c =>
    obtain ⟨-, rfl⟩ := List.cons.inj hinstrs
    refine ⟨c, ⟨h.function, h.terminator, before ++ [.instr j], ?_, ?_⟩, Nat.lt_succ_self _⟩
    · rw [hcode, List.append_assoc]
      rfl
    · rw [IR.Code.last_append]
      exact Prod.ext hblock rfl

theorem Stands.set {dst : Reg} {v : IR.Value} {callers : List (Reg × Activation)}
    (h : E.Stands c (a.bottom callers)) : E.Stands c ((a.set dst v).bottom callers) := by
  cases callers with
  | nil => exact ⟨h.function, h.terminator, h.place⟩
  | cons => exact h

/-- In a step the activation without callers goes further in its code, or waits where it is. -/
theorem Stands.step (hE : E.Forward) (h : E.Stands c s.bottom) (hstep : m.step answer s = .running t) :
    ∃ d, E.Stands d t.bottom ∧ d.length ≤ c.length ∧ (s.callers = [] → d.length < c.length) := by
  cases hs : s.callers with
  | nil =>
    rw [IR.State.bottom_of_nil hs] at h
    suffices hlt : ∃ d, E.Stands d t.bottom ∧ d.length < c.length by
      obtain ⟨d, hd, hlt⟩ := hlt
      exact ⟨d, hd, Nat.le_of_lt hlt, fun _ => hlt⟩
    cases IR.moves_of_step hstep with
    | advance htodo htop hcallers =>
      rw [IR.State.bottom_of_nil (hcallers.trans hs), htop]
      exact h.advance htodo _
    | call htodo hcallers =>
      rw [hs] at hcallers
      rw [IR.State.bottom_of_cons hcallers]
      exact h.advance htodo _
    | jump htodo hid hblock htop hcallers =>
      rw [IR.State.bottom_of_nil (hcallers.trans hs), htop]
      exact h.jump hE htodo hid hblock
    | ret hcallers _ =>
      rw [hs] at hcallers
      cases hcallers
  | cons caller rest =>
    refine ⟨c, ?_, Nat.le_refl _, nofun⟩
    cases IR.moves_of_step hstep with
    | advance _ _ hcallers | jump _ _ _ _ hcallers =>
      rwa [IR.State.bottom_of_cons (hcallers.trans hs), ← IR.State.bottom_of_cons hs]
    | call _ hcallers =>
      rw [hs] at hcallers
      rwa [IR.State.bottom_of_cons hcallers, IR.Activation.bottom, ← IR.State.bottom_of_cons hs]
    | ret hcallers htop =>
      rw [IR.State.bottom_of_cons hcallers] at h
      rw [IR.State.bottom, htop]
      exact h.set

/-- What a run goes through on its way, and where it comes to, lies behind where it starts. -/
theorem Stands.run (hE : E.Forward) (h : E.Stands c s.bottom) {n : Nat} (hrun : m.run answers n s = .running t) :
    ∃ d, E.Stands d t.bottom ∧ d.length ≤ c.length ∧
      ∀ x ∈ m.path answers 0 n s, ∃ e, E.Marks e x ∧ d.length < e.length ∧ e.length ≤ c.length := by
  induction n generalizing s c with
  | zero =>
    cases hrun
    exact ⟨c, h, Nat.le_refl _, nofun⟩
  | succ n ih =>
    rw [IR.Module.run_succ] at hrun
    cases hstep : m.step (answers s.trace.length) s with
    | returned | trapped | stuck =>
      rw [hstep] at hrun
      cases hrun
    | running u =>
      rw [hstep] at hrun
      obtain ⟨e, he, hle, hlt⟩ := h.step hE hstep
      obtain ⟨d, hd, hde, hpath⟩ := ih he hrun
      refine ⟨d, hd, Nat.le_trans hde hle, fun x hx => ?_⟩
      simp only [IR.Module.path, hstep] at hx
      have hrest : x ∈ m.path answers 0 n u →
          ∃ e, E.Marks e x ∧ d.length < e.length ∧ e.length ≤ c.length := by
        intro hx
        obtain ⟨e', he', hlt', hle'⟩ := hpath x hx
        exact ⟨e', he', hlt', Nat.le_trans hle' hle⟩
      split at hx
      case isFalse => exact hrest hx
      case isTrue hcallers =>
        have hnil := List.length_eq_zero_iff.mp hcallers
        rcases List.mem_cons.mp hx with rfl | hx
        · rw [IR.State.bottom_of_nil hnil] at h
          exact ⟨c, h.place, Nat.lt_of_le_of_lt hde (hlt hnil), Nat.le_refl _⟩
        · exact hrest hx

/-- An activation without callers goes through its code in the order of the layout. -/
theorem Stands.path_pairwise (hE : E.Forward) (h : E.Stands c s.bottom) {n : Nat}
    (hrun : m.run answers n s = .running t) : (m.path answers 0 n s).Pairwise E.Precedes := by
  induction n generalizing s c with
  | zero => exact .nil
  | succ n ih =>
    rw [IR.Module.run_succ] at hrun
    cases hstep : m.step (answers s.trace.length) s with
    | returned | trapped | stuck =>
      rw [hstep] at hrun
      cases hrun
    | running u =>
      rw [hstep] at hrun
      obtain ⟨e, he, -, hlt⟩ := h.step hE hstep
      simp only [IR.Module.path, hstep]
      split
      case isFalse => exact ih he hrun
      case isTrue hcallers =>
        have hnil := List.length_eq_zero_iff.mp hcallers
        rw [IR.State.bottom_of_nil hnil] at h
        refine .cons (fun x hx => ?_) (ih he hrun)
        obtain ⟨d, -, -, hpath⟩ := he.run hE hrun
        obtain ⟨e', he', -, hle'⟩ := hpath x hx
        exact ⟨c, e', h.place, he', Nat.lt_of_le_of_lt hle' (hlt hnil)⟩

/-- Which of some places a run comes to, from a state without callers to another: those that it is known to
have come to, if the others are behind its end. -/
theorem Stands.filter_path (hE : E.Forward) (hs : s.callers = []) (h : E.Stands c s.top) {n : Nat}
    (hrun : m.run answers n s = .running t) (ht : t.callers = []) (hd : E.Stands d t.top) {places : List IR.Place}
    {k : Nat} (hplaces : places.Pairwise E.Precedes) (hbegun : ∀ x ∈ places.take k, x ∈ m.path answers 0 n s)
    (hlater : ∀ x ∈ places.drop k, ∃ e, E.Marks e x ∧ e.length ≤ d.length) :
    (m.path answers 0 n s).filter (· ∈ places) = places.take k := by
  rw [← IR.State.bottom_of_nil hs] at h
  rw [← IR.State.bottom_of_nil ht] at hd
  have hasymm : Std.Antisymm E.Precedes := ⟨fun _ _ hxy hyx => absurd hyx hxy.asymm⟩
  have hirrefl : Std.Irrefl E.Precedes := ⟨fun _ hx => hx.asymm hx⟩
  refine ((h.path_pairwise hE hrun).filter _).eq_of_mem_iff (hplaces.take) fun x => ?_
  rw [List.mem_filter, decide_eq_true_eq]
  constructor
  · rintro ⟨hx, hmem⟩
    rw [← List.take_append_drop k places] at hmem
    rcases List.mem_append.mp hmem with hmem | hmem
    · exact hmem
    · obtain ⟨d', hd', -, hpath⟩ := h.run hE hrun
      obtain ⟨e, he, hlt, -⟩ := hpath x hx
      obtain ⟨e', he', hle⟩ := hlater x hmem
      rw [hd'.place.unique hd.place, he.unique he'] at hlt
      omega
  · exact fun hx => ⟨hbegun x hx, List.mem_of_mem_take hx⟩

end Order
end Setting

theorem CompiledProgram.forward {abi : IR.Abi} {program : List Expr} {m : IR.Module}
    (h : CompiledProgram abi program m) {E : Setting} (hf : E.function ∈ m.functions) : E.Forward := by
  obtain ⟨site, -, hc⟩ := h.exists_site hf
  obtain ⟨root, code, σ, p, -, hem, hconsists⟩ := hc.consists
  have hblocks := E.consists.blocks.symm.trans hconsists.blocks
  obtain ⟨hblock, hlater⟩ := List.cons.inj hblocks
  obtain ⟨-, -, hinstrs, hexit⟩ := IR.Block.mk.inj hblock
  obtain ⟨hcode, hfinal⟩ := IR.Code.eq_of_blocks hinstrs hexit hlater
  constructor
  · rw [hcode]
    exact (parameterCode_forward _ _).append hem.forward
  · rw [hfinal]
    rfl

end SmallLisp
