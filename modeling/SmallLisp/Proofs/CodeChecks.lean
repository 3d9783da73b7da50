import SmallLisp.IR.Verify
import SmallLisp.Proofs.LinearCode

/-! # The checks of a function on its code

The checks go through the blocks of a function in layout order, so they can be read off the code as one
line. A function that consists of checked code with distinct labels and targets among its blocks passes
verification.
-/
namespace SmallLisp.IR

theorem forM_ok {α ε : Type} {f : α → Except ε Unit} {xs : List α} (h : ∀ x ∈ xs, f x = .ok ()) :
    xs.forM f = .ok () := by
  induction xs with
  | nil => rfl
  | cons x xs ih =>
    change (f x >>= fun _ => xs.forM f) = .ok ()
    rw [h x List.mem_cons_self, ih fun y hy => h y (List.mem_cons_of_mem _ hy)]
    rfl

namespace Code

def edges (id : BlockId) : Code → List (BlockId × BlockId)
  | [] => []
  | .instr _ :: c => edges id c
  | .next t target _ :: c => t.successors.map (id, ·) ++ edges target c

section Cons
variable (id target : BlockId) (i : Instr) (t : Terminator) (label : String) (c : Code)

@[simp, grind =] theorem edges_nil : edges id [] = [] := rfl
@[simp, grind =] theorem edges_instr : edges id (.instr i :: c) = edges id c := rfl
@[simp, grind =] theorem edges_next :
    edges id (.next t target label :: c) = t.successors.map (id, ·) ++ edges target c := rfl

end Cons

@[simp, grind =] theorem edges_append (id : BlockId) (c d : Code) :
    edges id (c ++ d) = edges id c ++ edges (last id c) d := by
  induction c generalizing id with
  | nil => rfl
  | cons item c ih =>
    cases item with
    | instr i => exact ih id
    | next t target label => simp [ih]

/-- Where an edge comes from. -/
theorem exists_of_mem_edges {id : BlockId} {c : Code} {e : BlockId × BlockId} (he : e ∈ edges id c) :
    ∃ a t target label d, c = a ++ .next t target label :: d ∧ e.1 = last id a ∧ e.2 ∈ t.successors := by
  induction c generalizing id with
  | nil => cases he
  | cons item c ih =>
    cases item with
    | instr i =>
      obtain ⟨a, t, target, label, d, rfl, h₁, h₂⟩ := ih he
      exact ⟨.instr i :: a, t, target, label, d, rfl, h₁, h₂⟩
    | next u other name =>
      rcases List.mem_append.mp he with he | he
      · obtain ⟨target, ht, rfl⟩ := List.mem_map.mp he
        exact ⟨[], u, other, name, c, rfl, rfl, ht⟩
      · obtain ⟨a, t, target, label, d, rfl, h₁, h₂⟩ := ih he
        exact ⟨.next u other name :: a, t, target, label, d, rfl, h₁, h₂⟩

variable (final : Terminator)

/-- The branches of blocks, with where each starts, are the edges of the code and those of the last terminator. -/
theorem edges_blocks (id : BlockId) (label : String) (c : Code) :
    (blocks final id label c).flatMap (fun b => b.terminator.successors.map (b.id, ·)) =
      edges id c ++ final.successors.map (last id c, ·) := by
  induction c generalizing id label with
  | nil => simp [blocks, later, exit]
  | cons item c ih =>
    cases item with
    | instr i => exact ih id label
    | next t target name => simpa [blocks, exit, later] using ih target name

/-- The blocks that blocks branch to. -/
theorem successors_blocks (id : BlockId) (label : String) (c : Code) :
    (blocks final id label c).flatMap (·.terminator.successors) =
      (edges id c).map (·.2) ++ final.successors := by
  have h := congrArg (List.map (·.2)) (edges_blocks final id label c)
  simpa [List.map_flatMap, Function.comp_def] using h

end Code

/-- An instruction that passes the checks in a block `id`, where `late` says that another instruction
than a phi came before and `defined` are the registers defined before. -/
structure Instr.Checked (f : Function) (id : BlockId) (late : Bool) (defined : List Reg) (i : Instr) :
    Prop where
  phi : ∀ dst incoming, i = .phi dst incoming →
    late = false ∧ ∀ source ∈ incoming.map (·.2), f.hasEdge source id = true
  arguments : ∀ param, .arg param ∈ i.operands → param ∈ f.params
  uses : ∀ r ∈ i.uses, r ∈ defined
  result : ∀ r, i.dst? = some r → r ∉ defined

def Code.Checked (f : Function) (id : BlockId) (late : Bool) (defined : List Reg) : Code → Prop
  | [] => True
  | .instr i :: c =>
    i.Checked f id late defined ∧ Checked f id (late || !i.isPhi) (i.dst?.toList ++ defined) c
  | .next t target _ :: c => (∀ r ∈ t.uses, r ∈ defined) ∧ Checked f target false defined c

theorem Code.Checked.append {f : Function} {id : BlockId} {late : Bool} {defined : List Reg} {c d : Code}
    (hc : c.Checked f id late defined)
    (hd : ∀ late, d.Checked f (last id c) late (c.dsts.reverse ++ defined)) :
    Checked f id late defined (c ++ d) := by
  induction c generalizing id late defined with
  | nil => exact hd late
  | cons item c ih =>
    cases item with
    | instr i =>
      refine ⟨hc.1, ih hc.2 ?_⟩
      cases hi : i.dst? <;> simpa [hi] using hd
    | next t target label => exact ⟨hc.1, ih hc.2 hd⟩

namespace Function
variable {f : Function}

theorem block?_isSome_of_hasEdge {source target : BlockId} (h : f.hasEdge source target = true) :
    ∃ b, f.block? source = some b := by
  obtain ⟨b, hb, he⟩ := List.any_eq_true.mp h
  simp only [Bool.and_eq_true] at he
  exact Option.isSome_iff_exists.mp (List.find?_isSome.mpr ⟨b, hb, he.1⟩)

theorem checkInstr_ok {b : Block} {late : Bool} {defined : List Reg} {i : Instr}
    (h : i.Checked f b.id late defined) :
    f.checkPhi b late i = .ok () ∧ f.checkArguments i.operands = .ok () ∧
      checkUses defined i.uses = .ok () ∧ checkResult defined i.dst? = .ok (i.dst?.toList ++ defined) := by
  refine ⟨?_, ?_, ?_, ?_⟩
  · cases i with
    | phi dst incoming =>
      obtain ⟨rfl, hsource⟩ := h.phi dst incoming rfl
      refine forM_ok fun source hs => ?_
      obtain ⟨s, hs'⟩ := block?_isSome_of_hasEdge (hsource source hs)
      simp [hs', hsource source hs]
    | _ => rfl
  · refine forM_ok fun operand ho => ?_
    cases operand with
    | arg param => exact if_pos (h.arguments param ho)
    | _ => rfl
  · exact forM_ok fun r hr => if_pos (h.uses r hr)
  · cases hi : i.dst? with
    | none => rfl
    | some r => exact if_neg (h.result r hi)

/-- Checked code makes blocks that pass the checks; the first block may have been checked in part. -/
theorem checkBlocks_ok {final : Terminator} {c : Code} {b : Block} {late : Bool} {defined : List Reg}
    (h : c.Checked f b.id late defined) (hf : ∀ r ∈ final.uses, r ∈ c.dsts.reverse ++ defined) :
    (do
      let defined ← f.checkInstrs b late defined c.instrs
      checkUses defined (c.exit final).uses
      f.checkBlocks defined (c.later final)) = .ok () := by
  induction c generalizing b late defined with
  | nil =>
    have hu : checkUses defined final.uses = .ok () := forM_ok fun r hr => if_pos (by simpa using hf r hr)
    simp [Code.instrs, Code.exit, Code.later, checkInstrs, checkBlocks, hu, bind, Except.bind]
  | cons item c ih =>
    cases item with
    | instr i =>
      obtain ⟨hphi, hargs, huses, hres⟩ := checkInstr_ok h.1
      have hrest := ih h.2 (by cases hi : i.dst? <;> simpa [hi] using hf)
      simp only [Code.instrs, Code.exit, Code.later, checkInstrs, hphi, hargs, huses, hres, bind,
        Except.bind] at hrest ⊢
      exact hrest
    | next t target label =>
      have hu : checkUses defined t.uses = .ok () := forM_ok fun r hr => if_pos (h.1 r hr)
      have hrest := ih (b := ⟨target, label, Code.instrs c, Code.exit final c⟩) h.2 hf
      simp only [Code.instrs, Code.exit, Code.later, checkInstrs, checkBlocks, hu, bind,
        Except.bind] at hrest ⊢
      exact hrest

theorem checkLabels_ok {seen : List String} {bs : List Block} (h : (bs.map (·.label)).Nodup)
    (hs : ∀ b ∈ bs, b.label ∉ seen) : checkLabels seen bs = .ok () := by
  induction bs generalizing seen with
  | nil => rfl
  | cons b bs ih =>
    rw [List.map_cons, List.nodup_cons] at h
    rw [checkLabels, if_neg (hs b List.mem_cons_self)]
    refine ih h.2 fun b' hb' hm => ?_
    rcases List.mem_cons.mp hm with he | hm
    · exact h.1 (he ▸ List.mem_map_of_mem hb')
    · exact hs b' (List.mem_cons_of_mem _ hb') hm

namespace Consists
variable {final : Terminator} {c : Code}

/-- A block of a function that consists of code is the entry or one of the code. -/
theorem block?_isSome (h : f.Consists final c) {id : BlockId} (hid : id = ⟨0⟩ ∨ id ∈ c.ids) :
    (f.block? id).isSome := by
  have hm : id ∈ f.blocks.map (·.id) := by
    rw [h.blocks, Code.map_id_blocks]
    simpa using hid
  obtain ⟨b, hb, rfl⟩ := List.mem_map.mp hm
  exact List.find?_isSome.mpr ⟨b, hb, by simp⟩

theorem hasEdge_of_mem_edges (h : f.Consists final c) {e : BlockId × BlockId} (he : e ∈ c.edges ⟨0⟩) :
    f.hasEdge e.1 e.2 = true := by
  obtain ⟨a, t, target, label, d, rfl, h₁, h₂⟩ := Code.exists_of_mem_edges he
  rw [h₁]
  exact h.hasEdge h₂

/-- Checked code makes a function that passes verification. -/
theorem verify_ok (h : f.Consists final c) (hlabels : ("entry" :: c.labels).Nodup)
    (htargets : ∀ e ∈ c.edges ⟨0⟩, e.2 ∈ c.ids) (hfinal : final.successors = [])
    (hc : c.Checked f ⟨0⟩ false []) (huses : ∀ r ∈ final.uses, r ∈ c.dsts) : f.verify = .ok () := by
  have hl : checkLabels [] f.blocks = .ok () := by
    refine checkLabels_ok ?_ (by simp)
    rw [h.blocks]
    simpa [Code.blocks, Code.map_label_later] using hlabels
  have ht : f.checkTargets (f.blocks.flatMap (·.terminator.successors)) = .ok () := by
    refine forM_ok fun id hid => if_pos ?_
    rw [h.blocks, Code.successors_blocks, hfinal, List.append_nil] at hid
    obtain ⟨e, he, rfl⟩ := List.mem_map.mp hid
    exact h.block?_isSome (.inr (htargets e he))
  have hb : f.checkBlocks [] f.blocks = .ok () := by
    have hok := checkBlocks_ok (b := ⟨⟨0⟩, "entry", Code.instrs c, Code.exit final c⟩) hc
      (fun r hr => by simpa using huses r hr)
    rw [h.blocks]
    exact hok
  unfold verify check
  rw [hl, ht, hb]
  rfl

end Consists
end Function
end SmallLisp.IR
