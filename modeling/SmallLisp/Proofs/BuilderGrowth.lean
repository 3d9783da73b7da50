import Mathlib.Data.List.Intervals
import SmallLisp.Proofs.BuilderRuns
import SmallLisp.Proofs.FunctionRules

/-! # How a builder grows

A builder whose current block is open is followed through the steps that a compilation takes. Instructions are
added to that block, until it is left, and to the blocks made since; no other block changes. Of the registers taken
since, some are still to be defined, and of the blocks made since, some still wait for their place.
-/
namespace SmallLisp.IR

/-- Adding to one of several blocks adds to what is in all of them. -/
theorem perm_instrs_modify {blocks : List OpenBlock} {n : Nat} {block : OpenBlock} {f : OpenBlock → OpenBlock}
    {is : List Instr} (hb : blocks[n]? = some block) (hf : (f block).instrs = block.instrs ++ is) :
    ((blocks.modify n f).flatMap (·.instrs)).Perm (blocks.flatMap (·.instrs) ++ is) := by
  obtain ⟨hn, rfl⟩ := List.getElem?_eq_some_iff.mp hb
  have hold : blocks.flatMap (·.instrs) = (blocks.take n).flatMap (·.instrs) ++ (blocks[n].instrs ++
      (blocks.drop (n + 1)).flatMap (·.instrs)) := by
    rw [← List.flatMap_cons, ← List.flatMap_append, List.getElem_cons_drop, List.take_append_drop]
  rw [List.modify_eq_take_cons_drop hn, List.flatMap_append, List.flatMap_cons, hf, hold, List.append_assoc,
    List.append_assoc, List.append_assoc]
  exact (List.perm_append_comm.append_left _).append_left _

namespace Builder

def IsOpen (b : Builder) : Prop := ∃ block, b.block? b.current = some block ∧ block.terminator = none

def EndsWith (b : Builder) (r : Reg) : Prop :=
  ∃ block i, b.block? b.current = some block ∧ block.terminator = none ∧ block.instrs.getLast? = some i ∧
    i.dst? = some r

def results (b : Builder) : List Reg := dsts (b.blocks.flatMap (·.instrs))

/-- What became of a builder whose current block was open. New blocks are placed, apart from those that wait for it,
and terminated, apart from the one that is current. The registers given were taken before and are to be defined by
what is added; those that are pending are still to be defined. -/
structure Grows (b b' : Builder) (waiting : List BlockId) (given pending : List Reg) : Prop where
  name : b'.name = b.name
  params : b'.params = b.params
  others : ∀ id, id.index < b.blocks.length → id ≠ b.current → b'.block? id = b.block? id
  here : ∃ block is t, b.block? b.current = some block ∧ block.terminator = none ∧
    b'.block? b.current = some { block with instrs := block.instrs ++ is, terminator := t } ∧
    (b'.current ≠ b.current → t.isSome = true)
  made : ∀ id block, b.blocks.length ≤ id.index → b'.block? id = some block → id ∉ waiting →
    block.placed = true ∧ (id ≠ b'.current → block.terminator.isSome = true)
  waits : ∀ id ∈ waiting, id ≠ b'.current ∧ ∃ label, b'.block? id = some { label }
  current : b'.current = b.current ∨ b.blocks.length ≤ b'.current.index
  isOpen : b'.IsOpen
  length : b.blocks.length ≤ b'.blocks.length
  layout : ∃ ids, b'.layout = b.layout ++ ids ∧
    (ids ++ waiting).Perm ((List.Ico b.blocks.length b'.blocks.length).map BlockId.mk)
  nextReg : b.nextReg ≤ b'.nextReg
  /-- What was added defines what was given and what was taken since, up to what is pending. -/
  results : (b'.results ++ pending).Perm (b.results ++ given ++ (List.Ico b.nextReg b'.nextReg).map Reg.mk)

/-! ## Single steps -/

section Steps
variable {b c c' : Builder} {id : BlockId} {block : OpenBlock}

theorem results_newBlock (b : Builder) (label : String) : (b.newBlock label).2.results = b.results := by
  simp [results, newBlock]

theorem results_modifyBlock {f : OpenBlock → OpenBlock} {is : List Instr} (hb : b.block? id = some block)
    (hf : (f block).instrs = block.instrs ++ is) : (b.modifyBlock id f).results.Perm (b.results ++ dsts is) := by
  have h := (perm_instrs_modify hb hf).filterMap Instr.dst?
  rwa [List.filterMap_append] at h

def moveOn (b : Builder) (t : Terminator) (id : BlockId) : Builder :=
  { (b.modifyBlock b.current ({ · with terminator := some t })).modifyBlock id ({ · with placed := true }) with
    current := id, layout := b.layout ++ [id] }

theorem moveOn_eq_ok {t : Terminator} {label : String} (hb : b.block? id = some { label }) (hne : id ≠ b.current)
    (ht : b.terminate t = .ok c) (hp : c.position id = .ok c') : c' = b.moveOn t id := by
  obtain ⟨-, rfl⟩ := terminate_eq_ok ht
  obtain ⟨block, hblock, rfl⟩ := position_eq_ok hp
  rw [block?_modifyBlock, if_neg hne, hb] at hblock
  cases hblock
  rfl

theorem block?_moveOn {label : String} (hb : b.block? id = some { label }) (hne : id ≠ b.current) (t : Terminator)
    (other : BlockId) : (b.moveOn t id).block? other =
      if other = id then some { label, placed := true }
      else if other = b.current then (b.block? other).map ({ · with terminator := some t }) else b.block? other := by
  change (modifyBlock _ _ _).block? other = _
  rw [block?_modifyBlock, block?_modifyBlock]
  by_cases ho : other = id
  · subst ho
    simp [hne, hb]
  · simp [ho]

theorem results_moveOn {label : String} (hcurrent : b.block? b.current = some block)
    (hb : b.block? id = some { label }) (hne : id ≠ b.current) (t : Terminator) :
    (b.moveOn t id).results.Perm b.results := by
  have hend := results_modifyBlock (f := ({ · with terminator := some t })) hcurrent (List.append_nil _).symm
  have hid : (b.modifyBlock b.current ({ · with terminator := some t })).block? id = some { label } := by
    rw [block?_modifyBlock, if_neg hne, hb]
  have hplace := results_modifyBlock (f := ({ · with placed := true })) hid (List.append_nil _).symm
  change (modifyBlock _ _ _).results.Perm _
  simpa [dsts] using hplace.trans (hend.append_right _)

end Steps

namespace Grows
variable {b c c' c'' : Builder} {waiting : List BlockId} {given pending pending' : List Reg}

theorem refl (h : b.IsOpen) (given : List Reg) : b.Grows b [] given given where
  name := rfl
  params := rfl
  others _ _ _ := rfl
  here := by
    obtain ⟨block, hb, ht⟩ := h
    refine ⟨block, [], none, hb, ht, ?_, fun hne => absurd rfl hne⟩
    rw [hb, List.append_nil, ← ht]
  made id block hle hb _ := absurd (List.getElem?_eq_some_iff.mp hb).1 (Nat.not_lt.mpr hle)
  waits := by simp
  current := .inl rfl
  isOpen := h
  length := Nat.le_refl _
  layout := ⟨[], by simp, by simp⟩
  nextReg := Nat.le_refl _
  results := by simp

theorem perm (h : b.Grows c waiting given pending) (hp : pending.Perm pending') :
    b.Grows c waiting given pending' :=
  { h with results := (hp.symm.append_left _).trans h.results }

theorem lt_length (h : b.Grows c waiting given pending) : b.current.index < b.blocks.length := by
  obtain ⟨block, _, _, hb, -⟩ := h.here
  exact (List.getElem?_eq_some_iff.mp hb).1

theorem ne_current (h : b.Grows c waiting given pending) {id : BlockId} (hlt : id.index < b.blocks.length)
    (hne : id ≠ b.current) : id ≠ c.current := by
  rintro rfl
  exact h.current.elim hne (Nat.not_le_of_lt hlt)

/-- The blocks that wait are new. -/
theorem le_of_mem (h : b.Grows c waiting given pending) {id : BlockId} (hid : id ∈ waiting) :
    b.blocks.length ≤ id.index := by
  obtain ⟨ids, -, hids⟩ := h.layout
  obtain ⟨n, hn, rfl⟩ := List.mem_map.mp (hids.mem_iff.mp (List.mem_append_right ids hid))
  exact (List.Ico.mem.mp hn).1

theorem nodup_waiting (h : b.Grows c waiting given pending) : waiting.Nodup := by
  obtain ⟨ids, -, hids⟩ := h.layout
  have hall := hids.nodup_iff.mpr ((List.Ico.nodup _ _).map fun _ _ => congrArg BlockId.index)
  exact (List.nodup_append.mp hall).2.1

theorem freshReg (h : b.Grows c waiting given pending) :
    b.Grows c.freshReg.2 waiting given (c.freshReg.1 :: pending) :=
  { h with
    nextReg := Nat.le_succ_of_le h.nextReg
    results := by
      have hall : (List.Ico b.nextReg c.freshReg.2.nextReg).map Reg.mk =
          (List.Ico b.nextReg c.nextReg).map Reg.mk ++ [c.freshReg.1] := by
        rw [Builder.freshReg, List.Ico.succ_top h.nextReg, List.map_append]
        rfl
      rw [hall, ← List.append_assoc]
      refine List.perm_middle.trans ((h.results.cons c.freshReg.1).trans ?_)
      exact (List.perm_append_singleton _ _).symm }

theorem freshLabel (h : b.Grows c waiting given pending) : b.Grows c.freshLabel.2 waiting given pending :=
  { h with }

theorem newBlock (h : b.Grows c waiting given pending) (label : String) :
    b.Grows (c.newBlock label).2 (waiting ++ [⟨c.blocks.length⟩]) given pending where
  name := h.name
  params := h.params
  others id hlt hne := by
    have hid : id ≠ ⟨c.blocks.length⟩ := by
      rintro rfl
      exact absurd hlt (Nat.not_lt.mpr h.length)
    rw [block?_newBlock, if_neg hid]
    exact h.others id hlt hne
  here := by
    obtain ⟨block, is, t, hb, hopen, hb', ht⟩ := h.here
    refine ⟨block, is, t, hb, hopen, ?_, ht⟩
    rw [block?_newBlock, if_neg (ne_of_block?_eq_some hb')]
    exact hb'
  made id block hle hb hnot := by
    obtain ⟨hid, hnew⟩ := not_or.mp (mt List.mem_append.mpr hnot)
    rw [block?_newBlock, if_neg (by simpa using hnew)] at hb
    exact h.made id block hle hb hid
  waits id hid := by
    rw [block?_newBlock]
    rcases List.mem_append.mp hid with hid | hid
    · obtain ⟨hne, hb⟩ := h.waits id hid
      rw [if_neg (ne_of_block?_eq_some hb.choose_spec)]
      exact ⟨hne, hb⟩
    · obtain rfl := List.mem_singleton.mp hid
      obtain ⟨block, hb, -⟩ := h.isOpen
      exact ⟨(ne_of_block?_eq_some hb).symm, label, if_pos rfl⟩
  current := h.current
  isOpen := by
    obtain ⟨block, hb, hopen⟩ := h.isOpen
    refine ⟨block, ?_, hopen⟩
    rw [block?_newBlock]
    exact (if_neg (ne_of_block?_eq_some hb)).trans hb
  length := by
    simp only [Builder.newBlock, List.length_append]
    exact Nat.le_add_right_of_le h.length
  layout := by
    obtain ⟨ids, hlayout, hids⟩ := h.layout
    refine ⟨ids, hlayout, ?_⟩
    simp only [Builder.newBlock, List.length_append, List.length_singleton]
    rw [List.Ico.succ_top h.length, List.map_append, ← List.append_assoc]
    exact hids.append_right _
  nextReg := h.nextReg
  results := by
    rw [results_newBlock]
    exact h.results

theorem emit {i : Instr} (h : b.Grows c waiting given pending) (hp : pending.Perm (i.dst?.toList ++ pending'))
    (he : c.emit i = .ok c') : b.Grows c' waiting given pending' := by
  obtain ⟨now, hnow, hopen⟩ := h.isOpen
  obtain rfl := emit_eq_ok he
  constructor
  case name => exact h.name
  case params => exact h.params
  case others =>
    intro id hlt hne
    rw [block?_modifyBlock, if_neg (h.ne_current hlt hne)]
    exact h.others id hlt hne
  case here =>
    obtain ⟨block, is, t, hb, hnone, hb', ht⟩ := h.here
    rw [block?_modifyBlock, hb']
    by_cases hc : b.current = c.current
    · exact ⟨block, is ++ [i], t, hb, hnone, by simp [hc], ht⟩
    · exact ⟨block, is, t, hb, hnone, if_neg hc, ht⟩
  case made =>
    intro id block hle hb hnot
    rw [block?_modifyBlock] at hb
    split at hb
    · obtain ⟨old, hold, rfl⟩ := Option.map_eq_some_iff.mp hb
      exact h.made id old hle hold hnot
    · exact h.made id block hle hb hnot
  case waits =>
    intro id hid
    obtain ⟨hne, hb⟩ := h.waits id hid
    rw [block?_modifyBlock, if_neg hne]
    exact ⟨hne, hb⟩
  case current => exact h.current
  case isOpen =>
    refine ⟨{ now with instrs := now.instrs ++ [i] }, ?_, hopen⟩
    change (c.modifyBlock c.current _).block? c.current = _
    rw [block?_modifyBlock, if_pos rfl, hnow]
    rfl
  case length => simpa [modifyBlock] using h.length
  case layout => simpa [modifyBlock] using h.layout
  case nextReg => exact h.nextReg
  case results =>
    have hadd := results_modifyBlock (f := fun block => { block with instrs := block.instrs ++ [i] }) hnow rfl
    rw [dsts_cons, show dsts [] = [] from rfl, List.append_nil] at hadd
    refine (hadd.append_right pending').trans ?_
    rw [List.append_assoc]
    exact (hp.symm.append_left _).trans h.results

/-- Ending the current block and going on in one that waits. -/
theorem moveOn {before after : List BlockId} {id : BlockId} {t : Terminator}
    (h : b.Grows c (before ++ id :: after) given pending) (ht : c.terminate t = .ok c')
    (hp : c'.position id = .ok c'') : b.Grows c'' (before ++ after) given pending := by
  obtain ⟨now, hnow, -⟩ := h.isOpen
  obtain ⟨hne, label, hid⟩ := h.waits id (by simp)
  obtain rfl := moveOn_eq_ok hid hne ht hp
  have hblock := block?_moveOn hid hne t
  have hnew : b.blocks.length ≤ id.index := h.le_of_mem (by simp)
  obtain ⟨hmid, -⟩ := List.nodup_cons.mp (List.perm_middle.nodup_iff.mp h.nodup_waiting)
  have hold {other : BlockId} (hlt : other.index < b.blocks.length) : other ≠ id := by
    rintro rfl
    exact absurd hlt (Nat.not_lt.mpr hnew)
  constructor
  case name => exact h.name
  case params => exact h.params
  case others =>
    intro other hlt hother
    rw [hblock, if_neg (hold hlt), if_neg (h.ne_current hlt hother)]
    exact h.others other hlt hother
  case here =>
    obtain ⟨block, is, u, hb, hnone, hb', hu⟩ := h.here
    rw [hblock, if_neg (hold h.lt_length), hb']
    by_cases hc : b.current = c.current
    · exact ⟨block, is, some t, hb, hnone, if_pos hc, fun _ => rfl⟩
    · exact ⟨block, is, u, hb, hnone, if_neg hc, fun _ => hu (Ne.symm hc)⟩
  case made =>
    intro other block hle hb hnot
    rw [hblock] at hb
    by_cases hother : other = id
    · rw [if_pos hother] at hb
      cases hb
      exact ⟨rfl, fun hcurrent => absurd hother hcurrent⟩
    · have hwait : other ∉ before ++ id :: after := by
        intro hm
        exact (List.mem_cons.mp (List.perm_middle.mem_iff.mp hm)).elim hother hnot
      rw [if_neg hother] at hb
      by_cases hc : other = c.current
      · rw [if_pos hc] at hb
        obtain ⟨old, hold, rfl⟩ := Option.map_eq_some_iff.mp hb
        exact ⟨(h.made other old hle hold hwait).1, fun _ => rfl⟩
      · -- any other new block had been left before, so it has its terminator already
        rw [if_neg hc] at hb
        obtain ⟨hplaced, hend⟩ := h.made other block hle hb hwait
        exact ⟨hplaced, fun _ => hend hc⟩
  case waits =>
    intro other hm
    have hother : other ≠ id := by
      rintro rfl
      exact hmid hm
    obtain ⟨hc, hb⟩ := h.waits other (List.perm_middle.mem_iff.mpr (List.mem_cons_of_mem _ hm))
    rw [hblock, if_neg hother, if_neg hc]
    exact ⟨hother, hb⟩
  case current => exact .inr hnew
  case isOpen => exact ⟨{ label, placed := true }, (hblock id).trans (if_pos rfl), rfl⟩
  case length => simpa [Builder.moveOn, modifyBlock] using h.length
  case layout =>
    obtain ⟨ids, hlayout, hids⟩ := h.layout
    refine ⟨ids ++ [id], ?_, ?_⟩
    · rw [Builder.moveOn, hlayout, List.append_assoc]
    · simp only [Builder.moveOn, modifyBlock, List.length_modify]
      refine List.Perm.trans ?_ hids
      rw [List.append_assoc, List.singleton_append]
      exact List.perm_middle.symm.append_left ids
  case nextReg => exact h.nextReg
  case results => exact ((results_moveOn hnow hid hne t).append_right pending).trans h.results

end Grows

/-- An instruction added is the last of its block. -/
theorem endsWith_of_emit {b b' : Builder} {i : Instr} {r : Reg} (h : b.IsOpen) (he : b.emit i = .ok b')
    (hr : i.dst? = some r) : b'.EndsWith r := by
  obtain ⟨block, hb, hopen⟩ := h
  obtain rfl := emit_eq_ok he
  refine ⟨{ block with instrs := block.instrs ++ [i] }, i, ?_, hopen, List.getLast?_concat, hr⟩
  change (b.modifyBlock b.current _).block? b.current = _
  rw [block?_modifyBlock, if_pos rfl, hb]
  rfl

/-! ## Finishing -/

def instrs (b : Builder) (id : BlockId) : List Instr := ((b.block? id).map (·.instrs)).getD []

theorem instrs_of_closeBlock {b : Builder} {id : BlockId} {part : List Block} (h : b.closeBlock id = .ok part) :
    part.flatMap (·.instrs) = b.instrs id := by
  rw [closeBlock] at h
  rw [instrs]
  cases hb : b.block? id with
  | none =>
    rw [hb] at h
    cases h
    rfl
  | some block =>
    rw [hb] at h
    cases ht : block.terminator with
    | none => simp [ht] at h
    | some t =>
      simp only [ht] at h
      cases h
      simp

theorem instrs_of_mapM {b : Builder} {ids : List BlockId} {parts : List (List Block)}
    (h : ids.mapM b.closeBlock = .ok parts) : parts.flatten.flatMap (·.instrs) = ids.flatMap b.instrs := by
  induction ids generalizing parts with
  | nil =>
    cases h
    rfl
  | cons id ids ih =>
    rw [List.mapM_cons] at h
    cases hpart : b.closeBlock id with
    | error u =>
      rw [hpart] at h
      cases h
    | ok part =>
      rw [hpart] at h
      cases hrest : ids.mapM b.closeBlock with
      | error u =>
        rw [hrest] at h
        cases h
      | ok rest =>
        rw [hrest] at h
        cases h
        rw [List.flatten_cons, List.flatMap_append, instrs_of_closeBlock hpart, ih hrest, List.flatMap_cons]

/-- All blocks by their identities. -/
theorem flatMap_instrs (b : Builder) :
    ((List.range b.blocks.length).map BlockId.mk).flatMap b.instrs = b.blocks.flatMap (·.instrs) := by
  rw [List.flatMap_def, List.flatMap_def, List.map_map]
  congr 1
  apply List.ext_getElem
  · simp
  · intro n hn hn'
    simp only [List.length_map] at hn'
    simp [instrs, block?, hn']

/-- A finished function defines what its builder does, if every block has its place once. -/
theorem results_of_finish {b : Builder} {f : Function} (h : b.finish = .ok f)
    (hlayout : b.layout.Perm ((List.range b.blocks.length).map BlockId.mk)) : f.results.Perm b.results := by
  rw [finish] at h
  cases hfind : b.blocks.find? (!·.placed) with
  | some block =>
    rw [hfind] at h
    cases h
  | none =>
    rw [hfind] at h
    cases hm : b.layout.mapM b.closeBlock with
    | error u =>
      simp only [hm] at h
      cases h
    | ok parts =>
      simp only [hm] at h
      cases h
      rw [Function.results, results, ← flatMap_instrs, instrs_of_mapM hm]
      exact (hlayout.flatMap_right _).filterMap _

end Builder

/-- The instructions of a function define the registers `%sym1`, `%sym2` and so on without a gap, each once. -/
def Function.Gapless (f : Function) : Prop := ∃ n, f.results.Perm ((List.range' 1 n).map Reg.mk)

/-- A function is gapless if all that was taken in the course of making it was defined. -/
theorem Builder.Grows.gapless {name : String} {params : List String} {b b' : Builder} {t : Terminator} {f : Function}
    (h : (new name params).Grows b [] [] []) (ht : b.terminate t = .ok b') (hf : b'.finish = .ok f) : f.Gapless := by
  obtain ⟨now, hnow, -⟩ := h.isOpen
  obtain ⟨-, rfl⟩ := terminate_eq_ok ht
  obtain ⟨ids, hlayout, hids⟩ := h.layout
  have hplaces : b.layout.Perm ((List.range b.blocks.length).map BlockId.mk) := by
    have hpos : 0 < b.blocks.length := h.length
    rw [List.append_nil] at hids
    rw [hlayout, ← List.Ico.zero_bot, List.Ico.eq_cons hpos]
    exact hids.cons _
  have hend := results_modifyBlock (f := ({ · with terminator := some t })) hnow (List.append_nil _).symm
  have hresults := results_of_finish hf (by simpa [modifyBlock] using hplaces)
  have hall := h.results
  refine ⟨b.nextReg - 1, hresults.trans (hend.trans ?_)⟩
  simpa [dsts, Builder.results, new, List.Ico] using hall

/-! ## What is added -/

/-- Code for a builder: instructions for its current block, how that block ends if it does, and new blocks. -/
structure Addition where
  instrs : List Instr
  terminator : Option Terminator
  blocks : List OpenBlock

def Addition.results (a : Addition) : List Reg := dsts (a.instrs ++ a.blocks.flatMap (·.instrs))

namespace Builder

def blocksWith (b : Builder) (a : Addition) : List OpenBlock :=
  b.blocks.modify b.current.index (fun block =>
    { block with instrs := block.instrs ++ a.instrs, terminator := a.terminator }) ++ a.blocks

/-- What becomes of a builder by the code of a value that goes to a register. -/
structure Receives (b b' : Builder) (target : Reg) (a : Addition) : Prop where
  name : b'.name = b.name
  params : b'.params = b.params
  blocks : b'.blocks = b.blocksWith a
  /-- New blocks have their place, each once and behind the others. -/
  placed : ∀ block ∈ a.blocks, block.placed = true
  layout : ∃ ids, b'.layout = b.layout ++ ids ∧
    ids.Perm ((List.Ico b.blocks.length b'.blocks.length).map BlockId.mk)
  /-- The block that was current is terminated if it was left, and so are the new ones. -/
  left : b'.current ≠ b.current → a.terminator.isSome = true
  ended : ∀ id block, b.blocks.length ≤ id.index → b'.block? id = some block → id ≠ b'.current →
    block.terminator.isSome = true
  /-- Control stays where it was or goes on in a new block, and has the value there at last. -/
  current : b'.current = b.current ∨ b.blocks.length ≤ b'.current.index
  endsWith : b'.EndsWith target
  nextReg : b.nextReg ≤ b'.nextReg
  /-- The registers defined are the target and all that were taken, each defined once. -/
  results : a.results.Perm (target :: (List.Ico b.nextReg b'.nextReg).map Reg.mk)
  nodup : a.results.Nodup

theorem results_of_blocks_eq {b b' : Builder} {block : OpenBlock} {a : Addition} (hb : b.block? b.current = some block)
    (h : b'.blocks = b.blocksWith a) : b'.results.Perm (b.results ++ a.results) := by
  have hinstrs : (b'.blocks.flatMap (·.instrs)).Perm
      (b.blocks.flatMap (·.instrs) ++ (a.instrs ++ a.blocks.flatMap (·.instrs))) := by
    rw [h, blocksWith, List.flatMap_append, ← List.append_assoc]
    exact (perm_instrs_modify hb rfl).append_right _
  have hresults := hinstrs.filterMap Instr.dst?
  rwa [List.filterMap_append] at hresults

/-- The blocks of a builder that grew are those that it had with an addition. -/
theorem Grows.blocks_eq {b b' : Builder} {waiting : List BlockId} {given pending : List Reg}
    (h : b.Grows b' waiting given pending) : ∃ a, b'.blocks = b.blocksWith a ∧
      b'.results.Perm (b.results ++ a.results) ∧ a.blocks = b'.blocks.drop b.blocks.length ∧
      (b'.current ≠ b.current → a.terminator.isSome = true) := by
  obtain ⟨block, is, t, hb, -, hb', ht⟩ := h.here
  have hblocks : b'.blocks = b.blocksWith ⟨is, t, b'.blocks.drop b.blocks.length⟩ := by
    apply List.ext_getElem?
    intro n
    by_cases hn : n < b.blocks.length
    · rw [blocksWith, List.getElem?_append_left (by simpa using hn)]
      change b'.block? ⟨n⟩ = (b.modifyBlock b.current _).block? ⟨n⟩
      rw [block?_modifyBlock]
      by_cases hc : ⟨n⟩ = b.current
      · rw [if_pos hc, hc, hb', hb]
        rfl
      · rw [if_neg hc]
        exact h.others ⟨n⟩ hn hc
    · rw [blocksWith, List.getElem?_append_right (by simpa using hn), List.length_modify, List.getElem?_drop,
        Nat.add_sub_cancel' (Nat.le_of_not_lt hn)]
  exact ⟨_, hblocks, results_of_blocks_eq hb hblocks, rfl, ht⟩

/-- A builder that grew, with nothing left to define and no block that waits, has received the code of a value. -/
theorem Grows.receives {b b' : Builder} {target : Reg} (h : b.Grows b' [] [target] [])
    (htarget : target.index < b.nextReg) (hends : b'.EndsWith target) : ∃ a, b.Receives b' target a := by
  obtain ⟨a, hblocks, hadded, hnew, hleft⟩ := h.blocks_eq
  have hresults : a.results.Perm (target :: (List.Ico b.nextReg b'.nextReg).map Reg.mk) := by
    have hall := h.results
    rw [List.append_nil, List.append_assoc] at hall
    exact (List.perm_append_left_iff _).mp (hadded.symm.trans hall)
  refine ⟨a, h.name, h.params, hblocks, ?_, ?_, hleft, ?_, h.current, hends, h.nextReg, hresults, ?_⟩
  · intro block hm
    rw [hnew] at hm
    obtain ⟨n, hn⟩ := List.mem_iff_getElem?.mp hm
    rw [List.getElem?_drop] at hn
    exact (h.made ⟨b.blocks.length + n⟩ block (Nat.le_add_right _ _) hn (by simp)).1
  · obtain ⟨ids, hlayout, hids⟩ := h.layout
    exact ⟨ids, hlayout, by rwa [List.append_nil] at hids⟩
  · intro id block hle hb
    exact (h.made id block hle hb (by simp)).2
  · rw [hresults.nodup_iff, List.nodup_cons]
    constructor
    · intro hm
      obtain ⟨n, hn, rfl⟩ := List.mem_map.mp hm
      exact absurd htarget (Nat.not_lt.mpr (List.Ico.mem.mp hn).1)
    · exact (List.Ico.nodup _ _).map fun _ _ => congrArg Reg.index

end Builder
end SmallLisp.IR
