import SmallLisp.Proofs.BuilderLayout
import SmallLisp.Proofs.BuilderScript
import Mathlib.Data.List.Nodup
import Mathlib.Data.List.Perm.Basic

/-! # What becomes of a script

A builder that has gone through a script without a misuse holds what the script makes and does, call by call. So
finishing it gives a function with exactly the blocks of the script, or names the first block that the script leaves
open.
-/
namespace SmallLisp.IR

/-! ## What a builder holds after a script -/

/-- A block under construction as a script leaves the block with an identity. -/
structure Script.Leaves (s : Script) (id : BlockId) (block : OpenBlock) : Prop where
  placed : block.placed = true ↔ id ∈ s.visits
  instrs : block.instrs = s.instrs id
  terminator : block.terminator.toList = s.terminators id

structure Builder.Records (b : Builder) (name : String) (params : List String) (s : Script) : Prop where
  name : b.name = name
  params : b.params = params
  labels : b.blocks.map OpenBlock.label = s.labels
  layout : b.layout = s.order
  current : b.current = s.endsIn ⟨0⟩
  made : ∀ id ∈ s.visits, id.index < s.labels.length
  blocks : ∀ id block, b.block? id = some block → s.Leaves id block

namespace Script.Leaves
variable {s : Script} {id : BlockId} {block : OpenBlock}

/-- A call leaves a block as it is if it goes nowhere and does nothing in that block. -/
theorem keep {c : BuilderCall} (h : s.Leaves id block) (htarget : c.target? = none)
    (hcall : endsIn ⟨0⟩ s = id → c.instr? = none ∧ c.terminator? = none) : Leaves (s ++ [c]) id block := by
  constructor
  · rw [visits_concat, htarget]
    simpa using h.placed
  · rw [instrs_concat, h.instrs]
    by_cases hid : endsIn ⟨0⟩ s = id
    · simp [hid, (hcall hid).1]
    · simp [hid]
  · rw [terminators_concat, h.terminator]
    by_cases hid : endsIn ⟨0⟩ s = id
    · simp [hid, (hcall hid).2]
    · simp [hid]

theorem position (h : s.Leaves id block) (target : BlockId) :
    Leaves (s ++ [.position target]) id { block with placed := block.placed || id = target } := by
  constructor
  · rw [visits_concat]
    simp [BuilderCall.target?, h.placed]
  · rw [instrs_concat]
    simpa [BuilderCall.instr?] using h.instrs
  · rw [terminators_concat]
    simpa [BuilderCall.terminator?] using h.terminator

theorem emit (h : s.Leaves id block) (hid : endsIn ⟨0⟩ s = id) (i : Instr) :
    Leaves (s ++ [.emit i]) id { block with instrs := block.instrs ++ [i] } := by
  constructor
  · rw [visits_concat]
    simpa [BuilderCall.target?] using h.placed
  · rw [instrs_concat]
    simp [BuilderCall.instr?, h.instrs, hid]
  · rw [terminators_concat]
    simpa [BuilderCall.terminator?] using h.terminator

theorem terminate (h : s.Leaves id block) (hid : endsIn ⟨0⟩ s = id) (hopen : block.terminator = none)
    (t : Terminator) : Leaves (s ++ [.terminate t]) id { block with terminator := some t } := by
  constructor
  · rw [visits_concat]
    simpa [BuilderCall.target?] using h.placed
  · rw [instrs_concat]
    simpa [BuilderCall.instr?] using h.instrs
  · rw [terminators_concat, ← h.terminator]
    simp [BuilderCall.terminator?, hopen, hid]

end Script.Leaves

namespace Builder

/-- Changing what is in one block changes no label. -/
theorem labels_modifyBlock (b : Builder) (id : BlockId) {f : OpenBlock → OpenBlock}
    (hf : ∀ block, (f block).label = block.label) :
    (b.modifyBlock id f).blocks.map OpenBlock.label = b.blocks.map OpenBlock.label := by
  apply List.ext_getElem?
  intro i
  by_cases hi : id.index = i
  · subst hi
    cases hb : b.blocks[id.index]? <;> simp [modifyBlock, hb, hf]
  · simp [modifyBlock, hi]

/-- Going to a block that has its place already does not change the block. -/
theorem modifyBlock_placed {b : Builder} {id : BlockId} {block : OpenBlock} (hb : b.block? id = some block)
    (hplaced : block.placed = true) : b.modifyBlock id ({ · with placed := true }) = b := by
  have hself : { block with placed := true } = block := by rw [← hplaced]
  have hblocks : b.blocks.modify id.index ({ · with placed := true }) = b.blocks := by
    apply List.ext_getElem?
    intro i
    by_cases hi : id.index = i
    · subst hi
      rw [block?] at hb
      simp [hb, hself]
    · simp [hi]
  rw [modifyBlock, hblocks]

/-- What going to a block does. -/
theorem position_eq_ok {b b' : Builder} {id : BlockId} (h : b.position id = .ok b') :
    ∃ block, b.block? id = some block ∧ b' = { b.modifyBlock id ({ · with placed := true }) with
      current := id, layout := if block.placed then b.layout else b.layout ++ [id] } := by
  rw [position] at h
  cases hb : b.block? id with
  | none =>
    rw [hb] at h
    cases h
  | some block =>
    rw [hb] at h
    refine ⟨block, rfl, ?_⟩
    by_cases hplaced : block.placed = true
    · simp only [hplaced, if_true] at h ⊢
      cases h
      rw [modifyBlock_placed hb hplaced]
    · simp only [hplaced] at h ⊢
      cases h
      rfl

theorem emit_eq_ok {b b' : Builder} {i : Instr} (h : b.emit i = .ok b') :
    b' = b.modifyBlock b.current fun block => { block with instrs := block.instrs ++ [i] } := by
  rw [emit] at h
  by_cases hend : b.isTerminated = true
  · simp [hend] at h
  · simp only [hend] at h
    cases h
    rfl

theorem terminate_eq_ok {b b' : Builder} {t : Terminator} (h : b.terminate t = .ok b') :
    b.isTerminated = false ∧ b' = b.modifyBlock b.current ({ · with terminator := some t }) := by
  rw [terminate] at h
  by_cases hend : b.isTerminated = true
  · simp [hend] at h
  · simp only [hend] at h
    cases h
    exact ⟨by simpa using hend, rfl⟩

theorem records_new (name : String) (params : List String) : (new name params).Records name params [] where
  name := rfl
  params := rfl
  labels := rfl
  layout := by simp [Script.order, Script.visits, new, List.eraseDups_cons]
  current := rfl
  made := by simp [Script.visits, Script.labels]
  blocks := by
    rintro ⟨_ | i⟩ block h
    · cases h
      exact ⟨by simp [Script.visits], rfl, rfl⟩
    · simp [new, block?] at h

namespace Records
variable {b b' : Builder} {name : String} {params : List String} {s : Script}

theorem length_blocks (h : b.Records name params s) : b.blocks.length = s.labels.length := by
  rw [← h.labels, List.length_map]

theorem exists_block (h : b.Records name params s) {id : BlockId} (hid : id ∈ s.visits) :
    ∃ block, b.block? id = some block := by
  have hlt := h.made id hid
  rw [← h.length_blocks] at hlt
  exact ⟨b.blocks[id.index], List.getElem?_eq_getElem hlt⟩

theorem label_eq (h : b.Records name params s) {id : BlockId} {block : OpenBlock} (hb : b.block? id = some block) :
    s.labels[id.index]? = some block.label := by
  rw [← h.labels, List.getElem?_map]
  exact congrArg (Option.map OpenBlock.label) hb

/-- A call that makes no block and goes nowhere changes nothing but what is in the blocks. -/
theorem stay {c : BuilderCall} (h : b.Records name params s) (hlabel : c.label? = none) (htarget : c.target? = none)
    (hname : b'.name = b.name) (hparams : b'.params = b.params) (hlayout : b'.layout = b.layout)
    (hcurrent : b'.current = b.current) (hlabels : b'.blocks.map OpenBlock.label = b.blocks.map OpenBlock.label)
    (hblocks : ∀ id block, b'.block? id = some block → Script.Leaves (s ++ [c]) id block) :
    b'.Records name params (s ++ [c]) := by
  have hvisits : Script.visits (s ++ [c]) = s.visits := by simp [Script.visits_concat, htarget]
  have hall : Script.labels (s ++ [c]) = s.labels := by simp [Script.labels_concat, hlabel]
  constructor
  · rw [hname, h.name]
  · rw [hparams, h.params]
  · rw [hlabels, h.labels, hall]
  · rw [hlayout, h.layout, Script.order, Script.order, hvisits]
  · rw [hcurrent, h.current, Script.endsIn_concat, htarget]
    rfl
  · rw [hvisits, hall]
    exact h.made
  · exact hblocks

theorem newBlock (h : b.Records name params s) (label : String) :
    (b.newBlock label).2.Records name params (s ++ [.newBlock label]) := by
  have hvisits : Script.visits (s ++ [.newBlock label]) = s.visits := by
    simp [Script.visits_concat, BuilderCall.target?]
  have hlabels : Script.labels (s ++ [.newBlock label]) = s.labels ++ [label] := Script.labels_concat _ _
  constructor
  case name => exact h.name
  case params => exact h.params
  case labels => simp [Builder.newBlock, h.labels, hlabels]
  case layout => rw [Script.order, hvisits]; exact h.layout
  case current => rw [Script.endsIn_concat]; exact h.current
  case made =>
    rw [hvisits, hlabels, List.length_append]
    exact fun id hid => Nat.lt_succ_of_lt (h.made id hid)
  case blocks =>
    intro id block hb
    have hkeep {block : OpenBlock} (hold : s.Leaves id block) : Script.Leaves (s ++ [.newBlock label]) id block :=
      hold.keep rfl fun _ => ⟨rfl, rfl⟩
    rw [block?_newBlock] at hb
    by_cases hid : id = ⟨b.blocks.length⟩
    · -- the new block is the last one, and the script has not gone to it yet
      have hnot : id ∉ s.visits := by
        intro hvisit
        have hlt := h.made id hvisit
        rw [← h.length_blocks, hid] at hlt
        exact Nat.lt_irrefl _ hlt
      rw [if_pos hid] at hb
      cases hb
      apply hkeep
      constructor
      · simpa using hnot
      · simp [Script.instrs, Script.calls_eq_nil hnot]
      · simp [Script.terminators, Script.calls_eq_nil hnot]
    · rw [if_neg hid] at hb
      exact hkeep (h.blocks id block hb)

theorem position (h : b.Records name params s) {target : BlockId} (hp : b.position target = .ok b') :
    b'.Records name params (s ++ [.position target]) := by
  obtain ⟨old, hb, rfl⟩ := position_eq_ok hp
  have hlabels : Script.labels (s ++ [.position target]) = s.labels := by
    simp [Script.labels_concat, BuilderCall.label?]
  constructor
  case name => exact h.name
  case params => exact h.params
  case labels =>
    rw [hlabels, ← h.labels]
    exact labels_modifyBlock b target (f := ({ · with placed := true })) fun _ => rfl
  case layout =>
    have hplaced := (h.blocks target old hb).placed
    rw [Script.order_concat, ← h.layout]
    by_cases hold : old.placed = true
    · simp [hold, hplaced.mp hold]
    · simp [hold, mt hplaced.mpr hold]
  case current => rw [Script.endsIn_concat]; rfl
  case made =>
    intro id hid
    rw [hlabels]
    rw [Script.visits_concat] at hid
    rcases List.mem_append.mp hid with hid | hid
    · exact h.made id hid
    · obtain rfl : id = target := by simpa [BuilderCall.target?] using hid
      rw [← h.length_blocks]
      exact (List.getElem?_eq_some_iff.mp hb).1
  case blocks =>
    intro id block hm
    change (b.modifyBlock target _).block? id = some block at hm
    rw [block?_modifyBlock] at hm
    cases hold : b.block? id with
    | none => simp [hold] at hm
    | some before =>
      obtain rfl : { before with placed := before.placed || id = target } = block := by
        by_cases hid : id = target
        · subst hid
          simpa [hold] using hm
        · simpa [hold, hid] using hm
      exact (h.blocks id before hold).position target

/-- Doing something in the current block leaves the others as they are. -/
theorem within {f : OpenBlock → OpenBlock} {c : BuilderCall} (h : b.Records name params s) (hlabel : c.label? = none)
    (htarget : c.target? = none) (hf : ∀ block, (f block).label = block.label)
    (hblock : ∀ block, b.block? b.current = some block → s.Leaves b.current block →
      Script.Leaves (s ++ [c]) b.current (f block)) :
    (b.modifyBlock b.current f).Records name params (s ++ [c]) := by
  refine h.stay hlabel htarget rfl rfl rfl rfl (labels_modifyBlock b b.current hf) ?_
  intro id block hm
  rw [block?_modifyBlock] at hm
  by_cases hid : id = b.current
  · subst hid
    rw [if_pos rfl] at hm
    obtain ⟨before, hold, rfl⟩ := Option.map_eq_some_iff.mp hm
    exact hblock before hold (h.blocks _ before hold)
  · rw [if_neg hid] at hm
    apply (h.blocks id block hm).keep htarget
    intro hcurrent
    rw [← h.current] at hcurrent
    exact absurd hcurrent.symm hid

theorem emit (h : b.Records name params s) {i : Instr} (hp : b.emit i = .ok b') :
    b'.Records name params (s ++ [.emit i]) := by
  obtain rfl := emit_eq_ok hp
  refine h.within rfl rfl (fun _ => rfl) ?_
  intro block _ hold
  exact hold.emit h.current.symm i

theorem terminate (h : b.Records name params s) {t : Terminator} (hp : b.terminate t = .ok b') :
    b'.Records name params (s ++ [.terminate t]) := by
  obtain ⟨hopen, rfl⟩ := terminate_eq_ok hp
  refine h.within rfl rfl (fun _ => rfl) ?_
  intro block hb hold
  have hnone : block.terminator = none := by simpa [isTerminated, hb] using hopen
  exact hold.terminate h.current.symm hnone t

/-- What one call keeps. -/
theorem perform (h : b.Records name params s) {c : BuilderCall} (hp : b.perform c = .ok b') :
    b'.Records name params (s ++ [c]) := by
  cases c with
  | freshReg | freshLabel =>
    cases hp
    refine h.stay rfl rfl rfl rfl rfl rfl rfl ?_
    intro id block hb
    exact (h.blocks id block hb).keep rfl fun _ => ⟨rfl, rfl⟩
  | newBlock label =>
    cases hp
    exact h.newBlock label
  | position target => exact h.position hp
  | emit i => exact h.emit hp
  | terminate t => exact h.terminate hp

/-- What a script keeps. -/
theorem performAll {r : Script} (h : b.Records name params s) (hp : b.performAll r = .ok b') :
    b'.Records name params (s ++ r) := by
  induction r generalizing b s with
  | nil =>
    cases hp
    rwa [List.append_nil]
  | cons c r ih =>
    rw [Builder.performAll, List.foldlM_cons] at hp
    cases hc : b.perform c with
    | error misuse =>
      rw [hc] at hp
      cases hp
    | ok b₁ =>
      rw [hc] at hp
      rw [List.append_cons]
      exact ih (h.perform hc) hp

/-! ## Finishing -/

/-- A block that the script goes to is closed with what the script does in it. -/
theorem closeBlock_eq (h : b.Records name params s) {id : BlockId} (hid : id ∈ s.visits) :
    ∃ label, s.labels[id.index]? = some label ∧ b.closeBlock id = match s.terminators id with
      | [] => .error (.noTerminator label name)
      | t :: _ => .ok [⟨id, label, s.instrs id, t⟩] := by
  obtain ⟨block, hb⟩ := h.exists_block hid
  have hleaves := h.blocks id block hb
  refine ⟨block.label, h.label_eq hb, ?_⟩
  rw [closeBlock, hb, ← hleaves.terminator, ← hleaves.instrs, ← h.name]
  cases ht : block.terminator <;> simp [ht]

theorem terminators_length_le (h : b.Records name params s) {id : BlockId} (hid : id ∈ s.visits) :
    (s.terminators id).length ≤ 1 := by
  obtain ⟨block, hb⟩ := h.exists_block hid
  rw [← (h.blocks id block hb).terminator]
  cases block.terminator <;> simp

theorem blocks_of_mapM (h : b.Records name params s) {ids : List BlockId} (hids : ∀ id ∈ ids, id ∈ s.visits) :
    ∀ {parts}, ids.mapM b.closeBlock = .ok parts → parts.flatten.map Block.id = ids ∧
      ∀ block ∈ parts.flatten, s.labels[block.id.index]? = some block.label ∧ s.instrs block.id = block.instrs ∧
        s.terminators block.id = [block.terminator] := by
  induction ids with
  | nil =>
    intro parts hm
    cases hm
    simp
  | cons id ids ih =>
    intro parts hm
    have hid := hids id List.mem_cons_self
    obtain ⟨label, hlabel, hclose⟩ := h.closeBlock_eq hid
    have hone := h.terminators_length_le hid
    rw [List.mapM_cons, hclose] at hm
    cases ht : s.terminators id with
    | nil =>
      rw [ht] at hm
      cases hm
    | cons t ts =>
      obtain rfl : ts = [] := by simpa [ht] using hone
      rw [ht] at hm
      cases hrest : ids.mapM b.closeBlock with
      | error u =>
        rw [hrest] at hm
        cases hm
      | ok rest =>
        rw [hrest] at hm
        cases hm
        obtain ⟨hmap, hcontent⟩ := ih (fun id' hid' => hids id' (List.mem_cons_of_mem _ hid')) hrest
        constructor
        · simp [hmap]
        · intro block hblock
          rcases List.mem_cons.mp hblock with rfl | hblock
          · exact ⟨hlabel, rfl, ht⟩
          · exact hcontent block hblock

theorem open_of_mapM (h : b.Records name params s) {ids : List BlockId} (hids : ∀ id ∈ ids, id ∈ s.visits) :
    ∀ {u}, ids.mapM b.closeBlock = .error u → ∃ before id after label, ids = before ++ id :: after ∧
      s.labels[id.index]? = some label ∧ s.terminators id = [] ∧ (∀ j ∈ before, s.terminators j ≠ []) ∧
      u = .noTerminator label name := by
  induction ids with
  | nil => exact nofun
  | cons id ids ih =>
    intro u hm
    obtain ⟨label, hlabel, hclose⟩ := h.closeBlock_eq (hids id List.mem_cons_self)
    rw [List.mapM_cons, hclose] at hm
    cases ht : s.terminators id with
    | nil =>
      rw [ht] at hm
      cases hm
      exact ⟨[], id, ids, label, rfl, hlabel, ht, nofun, rfl⟩
    | cons t ts =>
      rw [ht] at hm
      cases hrest : ids.mapM b.closeBlock with
      | ok rest =>
        rw [hrest] at hm
        cases hm
      | error u' =>
        rw [hrest] at hm
        cases hm
        obtain ⟨before, id', after, label', rfl, hlabel', hopen, hfirst, hu⟩ :=
          ih (fun id' hid' => hids id' (List.mem_cons_of_mem _ hid')) hrest
        refine ⟨id :: before, id', after, label', rfl, hlabel', hopen, ?_, hu⟩
        intro j hj
        rcases List.mem_cons.mp hj with rfl | hj
        · simp [ht]
        · exact hfirst j hj

/-- A block without a place is the first that the script does not go to, in the order in which blocks are made. -/
theorem neverPlaced_of_find? (h : b.Records name params s) {block : OpenBlock}
    (hfind : b.blocks.find? (!·.placed) = some block) :
    ∃ i, s.labels[i]? = some block.label ∧ ⟨i⟩ ∉ s.visits ∧ ∀ j < i, ⟨j⟩ ∈ s.visits := by
  obtain ⟨hnot, i, hi, hblock, hbefore⟩ := List.find?_eq_some_iff_getElem.mp hfind
  have hb : b.block? ⟨i⟩ = some block := List.getElem?_eq_some_iff.mpr ⟨hi, hblock⟩
  refine ⟨i, h.label_eq hb, ?_, ?_⟩
  · rw [← (h.blocks _ block hb).placed]
    simpa using hnot
  · intro j hj
    have hjb : b.block? ⟨j⟩ = some b.blocks[j] := List.getElem?_eq_getElem (Nat.lt_trans hj hi)
    apply (h.blocks _ _ hjb).placed.mp
    simpa using hbefore j hj

theorem placed_of_find? (h : b.Records name params s) (hfind : b.blocks.find? (!·.placed) = none) :
    ∀ i < s.labels.length, ⟨i⟩ ∈ s.visits := by
  intro i hi
  rw [← h.length_blocks] at hi
  have hb : b.block? ⟨i⟩ = some b.blocks[i] := List.getElem?_eq_getElem hi
  apply (h.blocks _ _ hb).placed.mp
  simpa using List.find?_eq_none.mp hfind _ (List.getElem_mem hi)

/-- Once each block has its place, the layout lists each block once. -/
theorem order_perm (h : b.Records name params s) (hplaced : ∀ i < s.labels.length, ⟨i⟩ ∈ s.visits) :
    s.order.Perm ((List.range s.labels.length).map BlockId.mk) := by
  apply (List.perm_ext_iff_of_nodup (Script.nodup_eraseDups _) ?_).mpr
  · rintro ⟨i⟩
    simp only [List.mem_eraseDups, List.mem_map, List.mem_range, BlockId.mk.injEq, exists_eq_right]
    exact ⟨h.made ⟨i⟩, hplaced i⟩
  · apply List.Nodup.map
    · intro i j hij
      cases hij
      rfl
    · exact List.nodup_range

theorem lists_of_finish (h : b.Records name params s) {f : Function} (hf : b.finish = .ok f) :
    f.name = name ∧ f.params = params ∧ s.Lists f := by
  rw [finish] at hf
  cases hfind : b.blocks.find? (!·.placed) with
  | some block =>
    rw [hfind] at hf
    cases hf
  | none =>
    rw [hfind, h.layout] at hf
    cases hm : s.order.mapM b.closeBlock with
    | error u =>
      rw [hm] at hf
      cases hf
    | ok parts =>
      rw [hm] at hf
      cases hf
      obtain ⟨hmap, hcontent⟩ := h.blocks_of_mapM (fun id hid => List.mem_eraseDups.mp hid) hm
      refine ⟨h.name, h.params, ?_, hmap, hcontent, ?_⟩
      · dsimp only
        rw [hmap]
        exact h.order_perm (h.placed_of_find? hfind)
      · intro id hcalls
        dsimp only
        rw [hmap]
        by_contra hnot
        exact hcalls (Script.calls_eq_nil (mt List.mem_eraseDups.mpr hnot))

theorem lacks_of_finish (h : b.Records name params s) {u : Unfinished} (hu : b.finish = .error u) :
    s.Lacks name u := by
  rw [finish] at hu
  cases hfind : b.blocks.find? (!·.placed) with
  | some block =>
    rw [hfind, h.name] at hu
    cases hu
    obtain ⟨i, hlabel, hnot, hfirst⟩ := h.neverPlaced_of_find? hfind
    exact .neverPlaced hlabel hnot hfirst
  | none =>
    rw [hfind, h.layout] at hu
    cases hm : s.order.mapM b.closeBlock with
    | ok parts =>
      rw [hm] at hu
      cases hu
    | error u' =>
      rw [hm] at hu
      cases hu
      obtain ⟨before, id, after, label, horder, hlabel, hopen, hfirst, rfl⟩ :=
        h.open_of_mapM (fun id hid => List.mem_eraseDups.mp hid) hm
      exact .noTerminator (h.placed_of_find? hfind) horder hlabel hopen hfirst

end Records
end Builder

namespace Script
variable {s : Script}

theorem Lists.complete {f : Function} (h : s.Lists f) : s.Complete := by
  intro i hi
  have hid : ⟨i⟩ ∈ f.blocks.map Block.id :=
    h.once.mem_iff.mpr (List.mem_map_of_mem (List.mem_range.mpr hi))
  obtain ⟨block, hblock, hi⟩ := List.mem_map.mp hid
  rw [h.order] at hid
  refine ⟨List.mem_eraseDups.mp hid, ?_⟩
  rw [← hi, (h.content block hblock).2.2]
  exact List.cons_ne_nil _ _

theorem Lacks.not_complete {function : String} {u : Unfinished} (h : s.Lacks function u) : ¬ s.Complete := by
  intro hcomplete
  cases h with
  | neverPlaced hlabel hnot _ => exact hnot (hcomplete _ (List.getElem?_eq_some_iff.mp hlabel).1).1
  | noTerminator _ _ hlabel hopen _ => exact (hcomplete _ (List.getElem?_eq_some_iff.mp hlabel).1).2 hopen

/-- A builder that goes through a script without a misuse can be finished exactly when the script goes to every
block and ends it. Then the function has each block once, in the order in which the script first goes to them, with
what the script does there; otherwise the first block that the script leaves out is named. -/
theorem finish_of_performAll {name : String} {params : List String} {b : Builder}
    (h : (Builder.new name params).performAll s = .ok b) :
    ((∃ f, b.finish = .ok f) ↔ s.Complete) ∧
    (∀ f, b.finish = .ok f → f.name = name ∧ f.params = params ∧ s.Lists f) ∧
    (∀ u, b.finish = .error u → s.Lacks name u) := by
  have hrecords : b.Records name params s := (Builder.records_new name params).performAll h
  refine ⟨⟨?_, ?_⟩, fun _ => hrecords.lists_of_finish, fun _ => hrecords.lacks_of_finish⟩
  · rintro ⟨f, hf⟩
    exact (hrecords.lists_of_finish hf).2.2.complete
  · intro hcomplete
    cases hfinish : b.finish with
    | ok f => exact ⟨f, rfl⟩
    | error u => exact absurd hcomplete (hrecords.lacks_of_finish hfinish).not_complete

/-- A script that makes two blocks, fills the second first, and goes back to the entry while that block is open. -/
def revisitingScript : Script :=
  [.newBlock "late", .newBlock "early", .position ⟨2⟩, .emit (.alloca ⟨1⟩), .position ⟨0⟩,
    .emit (.alloca ⟨2⟩), .terminate (.br ⟨2⟩), .position ⟨2⟩, .emit (.alloca ⟨3⟩),
    .terminate (.br ⟨1⟩), .position ⟨1⟩, .terminate (.ret (.const 0))]

theorem finish_of_performAll_revisitingScript : ∃ b f,
    (Builder.new "f" []).performAll revisitingScript = .ok b ∧ b.finish = .ok f ∧ revisitingScript.Lists f ∧
      revisitingScript.order = [⟨0⟩, ⟨2⟩, ⟨1⟩] ∧
      revisitingScript.instrs ⟨2⟩ = [.alloca ⟨1⟩, .alloca ⟨3⟩] := by
  obtain ⟨b, hb⟩ : ∃ b, (Builder.new "f" []).performAll revisitingScript = .ok b := ⟨_, rfl⟩
  have hfinish := finish_of_performAll hb
  obtain ⟨f, hf⟩ := hfinish.1.mpr (by decide)
  exact ⟨b, f, hb, hf, (hfinish.2.1 f hf).2.2, by decide, by decide⟩

end Script
end SmallLisp.IR
