import Mathlib.Data.List.Nodup
import SmallLisp.Proofs.AcceptedText

/-! # Registers along paths

Control starts in the first block of a function and passes along branches. What the checks find out about
the text says little about paths: a block between two others in the text need not lie on a path from one
to the other. In an accepted function a register is defined where it is read exactly if control has passed
through the one block that defines it. So every read is good if those blocks dominate the blocks that read,
and branches that go forward do not ensure this.
-/
namespace SmallLisp.IR
namespace Function
section Paths
variable (f : Function)

/-- Control passes from the first block through the blocks `before`, one after the other, to a block. -/
inductive Path : (before : List Block) → Block → Prop
  | entry {b : Block} (h : f.blocks.head? = some b) : Path [] b
  | step {before : List Block} {b target : Block} (h : Path before b) (hmem : target ∈ f.blocks)
      (hedge : target.id ∈ b.terminator.successors) : Path (before ++ [b]) target

/-- In a block a register is read after the instructions `done`. A phi reads at the end of the block that
it names, on the edge to its own. -/
inductive Reads (b : Block) : (done : List Instr) → Reg → Prop
  | instr {done todo : List Instr} {i : Instr} {r : Reg} (h : b.instrs = done ++ i :: todo)
      (hphi : i.isPhi = false) (hr : r ∈ i.uses) : Reads b done r
  | terminator {r : Reg} (hr : r ∈ b.terminator.uses) : Reads b b.instrs r
  | edge {target : Block} {dst r : Reg} {incoming : List (Operand × BlockId)} (hmem : target ∈ f.blocks)
      (hedge : target.id ∈ b.terminator.successors) (hphi : .phi dst incoming ∈ target.instrs)
      (hr : (.reg r, b.id) ∈ incoming) : Reads b b.instrs r

def DefinedOnPaths : Prop := ∀ before b, f.Path before b → ∀ done r, f.Reads b done r →
  r ∈ dsts (before.flatMap (·.instrs) ++ done)

def Dominates (d b : Block) : Prop := ∀ before, f.Path before b → d ∈ before ++ [b]

end Paths

def Forward : List Block → Prop
  | [] => True
  | b :: bs => (∀ id ∈ b.terminator.successors, id ∈ bs.map (·.id)) ∧ Forward bs

/-! ## One definition of each register -/

section Definitions
variable {f : Function} {defined : List Reg}

theorem mem_dsts_flatMap {bs : List Block} {r : Reg} :
    r ∈ dsts (bs.flatMap (·.instrs)) ↔ ∃ b ∈ bs, r ∈ dsts b.instrs := by
  simp only [dsts, List.mem_filterMap, List.mem_flatMap]
  constructor
  · rintro ⟨i, ⟨b, hb, hi⟩, hr⟩
    exact ⟨b, hb, i, hi, hr⟩
  · rintro ⟨b, hb, i, hi, hr⟩
    exact ⟨i, ⟨b, hb, hi⟩, hr⟩

theorem nodup_append_dsts {is : List Instr} (hdefined : defined.Nodup) (h : ∀ before i after,
    is = before ++ i :: after → ∀ r, i.dst? = some r → r ∉ defined ++ dsts before) :
    (defined ++ dsts is).Nodup := by
  induction is generalizing defined with
  | nil => simpa [dsts] using hdefined
  | cons i is ih =>
    obtain ⟨hi, his⟩ := forall_cut_cons.mp h
    have hnodup : (defined ++ i.dst?.toList).Nodup := by
      cases hr : i.dst? with
      | none => simpa using hdefined
      | some r => simpa [dsts, List.nodup_append, hdefined] using fun x hx he => hi r hr (by simpa [dsts, ← he])
    rw [dsts_cons, ← List.append_assoc]
    refine ih hnodup fun before j after he r hr => ?_
    rw [List.append_assoc, ← dsts_cons]
    exact his before j after he r hr

theorem nodup_append_flatMap {bs : List Block} (hdefined : defined.Nodup) (h : ∀ before b after,
    bs = before ++ b :: after → b.Checked f (defined ++ dsts (before.flatMap (·.instrs)))) :
    (defined ++ dsts (bs.flatMap (·.instrs))).Nodup := by
  induction bs generalizing defined with
  | nil => simpa [dsts] using hdefined
  | cons b bs ih =>
    obtain ⟨hb, hbs⟩ := forall_cut_cons.mp h
    rw [List.flatMap_nil, show dsts [] = [] from rfl, List.append_nil] at hb
    have hnodup := nodup_append_dsts hdefined fun before i after he => (hb.instrs before i after he).result
    rw [List.flatMap_cons, dsts_append, ← List.append_assoc]
    refine ih hnodup fun before b' after he => ?_
    rw [List.append_assoc, ← dsts_append, ← List.flatMap_cons]
    exact hbs before b' after he

/-- No register is defined twice in an accepted function. -/
theorem nodup_dsts (h : f.verify = .ok ()) : (dsts (f.blocks.flatMap (·.instrs))).Nodup :=
  nodup_append_flatMap List.nodup_nil (verify_ok_iff.mp h).2.2

section Blocks
variable (h : f.verify = .ok ()) {b d : Block} {before after : List Block} {r : Reg}
include h

/-- What a block defines is not defined in the blocks around it. -/
theorem not_mem_around (he : f.blocks = before ++ b :: after) (hr : r ∈ dsts b.instrs) :
    (∀ d ∈ before, r ∉ dsts d.instrs) ∧ ∀ d ∈ after, r ∉ dsts d.instrs := by
  have hnodup := nodup_dsts h
  rw [he, List.flatMap_append, List.flatMap_cons, dsts_append, dsts_append] at hnodup
  obtain ⟨-, hrest, hbefore⟩ := List.nodup_append.mp hnodup
  obtain ⟨-, -, hafter⟩ := List.nodup_append.mp hrest
  constructor
  · intro d hd hrd
    exact hbefore r (mem_dsts_flatMap.mpr ⟨d, hd, hrd⟩) r (List.mem_append_left _ hr) rfl
  · intro d hd hrd
    exact hafter r hr r (mem_dsts_flatMap.mpr ⟨d, hd, hrd⟩) rfl

/-- Only one block defines a register. -/
theorem eq_of_mem_dsts (hb : b ∈ f.blocks) (hd : d ∈ f.blocks) (hrb : r ∈ dsts b.instrs)
    (hrd : r ∈ dsts d.instrs) : d = b := by
  obtain ⟨before, after, he⟩ := List.append_of_mem hb
  obtain ⟨hbefore, hafter⟩ := not_mem_around h he hrb
  rw [he, List.mem_append, List.mem_cons] at hd
  rcases hd with hd | rfl | hd
  · exact absurd hrd (hbefore d hd)
  · rfl
  · exact absurd hrd (hafter d hd)

/-- A register that is read has a definition. If it is in the same block, it is above the place. -/
theorem Reads.exists_definition {done : List Instr} (hr : f.Reads b done r) (hb : b ∈ f.blocks) :
    ∃ d ∈ f.blocks, r ∈ dsts d.instrs ∧ (d = b → r ∈ dsts done) := by
  have hchecked := (verify_ok_iff.mp h).2.2
  obtain ⟨before, after, he⟩ := List.append_of_mem hb
  cases hr with
  | @instr _ todo i _ hcut hphi hr =>
    have hdefined := ((hchecked before b after he).instrs done i todo hcut).uses r hr
    rcases List.mem_append.mp hdefined with hbefore | hdone
    · obtain ⟨d, hd, hrd⟩ := mem_dsts_flatMap.mp hbefore
      refine ⟨d, he ▸ List.mem_append_left _ hd, hrd, ?_⟩
      rintro rfl
      exact absurd hrd ((not_mem_around h he hrd).1 d hd)
    · refine ⟨b, hb, ?_, fun _ => hdone⟩
      rw [hcut, dsts_append]
      exact List.mem_append_left _ hdone
  | terminator hr =>
    have hdefined := (hchecked before b after he).terminator r hr
    rcases List.mem_append.mp hdefined with hbefore | hin
    · obtain ⟨d, hd, hrd⟩ := mem_dsts_flatMap.mp hbefore
      exact ⟨d, he ▸ List.mem_append_left _ hd, hrd, fun hdb => hdb ▸ hrd⟩
    · exact ⟨b, hb, hin, fun _ => hin⟩
  | @edge target dst _ incoming hmem _ hphi hr =>
    obtain ⟨above, below, ht⟩ := List.append_of_mem hmem
    obtain ⟨phis, rest, hcut⟩ := List.append_of_mem hphi
    have huse : r ∈ (Instr.phi dst incoming).uses := by
      simpa [Instr.uses, Instr.operands, Instr.place?] using ⟨_, ⟨_, hr⟩, rfl⟩
    have hdefined := ((hchecked above target below ht).instrs phis _ rest hcut).uses r huse
    rcases List.mem_append.mp hdefined with habove | hin
    · obtain ⟨d, hd, hrd⟩ := mem_dsts_flatMap.mp habove
      exact ⟨d, ht ▸ List.mem_append_left _ hd, hrd, fun hdb => hdb ▸ hrd⟩
    · have hrt : r ∈ dsts target.instrs := by
        rw [hcut, dsts_append]
        exact List.mem_append_left _ hin
      exact ⟨target, hmem, hrt, fun htb => htb ▸ hrt⟩

end Blocks
end Definitions

/-! ## Paths through the definitions -/

section Accepted
variable {f : Function} {before : List Block} {b d : Block}

theorem Path.mem (h : f.Path before b) : ∀ x ∈ before ++ [b], x ∈ f.blocks := by
  induction h with
  | entry h => simpa using List.mem_of_mem_head? h
  | step _ hmem _ ih =>
    intro x hx
    rcases List.mem_append.mp hx with hx | hx
    · exact ih x hx
    · exact List.mem_singleton.mp hx ▸ hmem

theorem Reads.done_subset {done : List Instr} {r r' : Reg} (hr : f.Reads b done r) (hr' : r' ∈ dsts done) :
    r' ∈ dsts b.instrs := by
  cases hr with
  | instr hcut _ _ =>
    rw [hcut, dsts_append]
    exact List.mem_append_left _ hr'
  | terminator _ | edge _ _ _ _ => exact hr'

/-- On a path through an accepted function a register is defined where it is read exactly if the path has
passed through the block with its definition. -/
theorem Reads.defined_iff (hv : f.verify = .ok ()) (hp : f.Path before b) {done : List Instr} {r : Reg}
    (hr : f.Reads b done r) (hd : d ∈ f.blocks) (hrd : r ∈ dsts d.instrs) :
    r ∈ dsts (before.flatMap (·.instrs) ++ done) ↔ d ∈ before ++ [b] := by
  have hb := hp.mem b (by simp)
  rw [dsts_append, List.mem_append, mem_dsts_flatMap, List.mem_append, List.mem_singleton]
  constructor
  · rintro (⟨x, hx, hrx⟩ | hdone)
    · have hdx := eq_of_mem_dsts hv (hp.mem x (List.mem_append_left _ hx)) hd hrx hrd
      exact .inl (hdx ▸ hx)
    · exact .inr (eq_of_mem_dsts hv hb hd (hr.done_subset hdone) hrd)
  · rintro (hmem | rfl)
    · exact .inl ⟨d, hmem, hrd⟩
    · obtain ⟨x, hx, hrx, hdone⟩ := hr.exists_definition hv hb
      exact .inr (hdone (eq_of_mem_dsts hv hd hx hrd hrx))

/-- Every read of an accepted function is good on every path if and only if the block that defines a
register dominates those that read it. -/
theorem definedOnPaths_iff_dominates (hv : f.verify = .ok ()) : f.DefinedOnPaths ↔
    ∀ b done r, f.Reads b done r → ∀ d ∈ f.blocks, r ∈ dsts d.instrs → f.Dominates d b := by
  constructor
  · intro h b done r hr d hd hrd before hp
    exact (hr.defined_iff hv hp hd hrd).mp (h before b hp done r hr)
  · intro h before b hp done r hr
    obtain ⟨d, hd, hrd, -⟩ := hr.exists_definition hv (hp.mem b (by simp))
    exact (hr.defined_iff hv hp hd hrd).mpr (h b done r hr d hd hrd before hp)

end Accepted

/-- A block defines a register, and the next one returns it. Control can pass around the definition. -/
def leakingFunction : Function where
  name := "f"
  params := []
  blocks := [⟨⟨0⟩, "entry", [.icmp ⟨1⟩ .slt (.const 1) (.const 2)], .condBr ⟨1⟩ ⟨1⟩ ⟨2⟩⟩,
    ⟨⟨1⟩, "yes", [.binary ⟨2⟩ .add (.const 1) (.const 2)], .br ⟨2⟩⟩,
    ⟨⟨2⟩, "end", [], .ret (.reg ⟨2⟩)⟩]

/-- The function is accepted, and its branches go forward, but there is a path on which a register is read
and never defined. -/
theorem leakingFunction_not_definedOnPaths : leakingFunction.blocks ≠ [] ∧
    (leakingFunction.blocks.map (·.id)).Nodup ∧ Forward leakingFunction.blocks ∧
    leakingFunction.verify = .ok () ∧ ¬ leakingFunction.DefinedOnPaths := by
  refine ⟨nofun, by decide, by simp [leakingFunction, Forward, Terminator.successors], by decide, fun h => ?_⟩
  have hentry : leakingFunction.Path [] leakingFunction.blocks[0] := .entry rfl
  have hend : leakingFunction.Path [leakingFunction.blocks[0]] leakingFunction.blocks[2] :=
    hentry.step (by decide) (by decide)
  have hread : leakingFunction.Reads leakingFunction.blocks[2] [] ⟨2⟩ := .terminator (by decide)
  have hdefined := h _ _ hend _ _ hread
  exact absurd hdefined (by decide)

/-- Here the block that defines the register does not dominate the one that reads it. -/
theorem definedOnPaths_iff_dominates_leakingFunction : leakingFunction.verify = .ok () ∧
    (leakingFunction.DefinedOnPaths ↔
      ∀ b done r, leakingFunction.Reads b done r → ∀ d ∈ leakingFunction.blocks, r ∈ dsts d.instrs →
        leakingFunction.Dominates d b) := by
  have hv : leakingFunction.verify = .ok () := by decide
  exact ⟨hv, definedOnPaths_iff_dominates hv⟩

end Function
end SmallLisp.IR
