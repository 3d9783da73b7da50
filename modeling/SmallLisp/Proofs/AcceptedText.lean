import SmallLisp.Proofs.CodeChecks

/-! # The text of an accepted function

The checks of a function walk through its text once and keep one list of registers. What they have found
out is said here of places in the text: before a place stand the blocks before its block and the
instructions before it in its block. How control passes between the blocks plays no part.
-/
namespace SmallLisp.IR

section Steps
variable {α β ε : Type}

theorem bind_ok_iff {x : Except ε α} {f : α → Except ε β} {v : β} :
    (x >>= f) = .ok v ↔ ∃ a, x = .ok a ∧ f a = .ok v := by
  cases x with
  | error e => exact ⟨nofun, nofun⟩
  | ok a => exact ⟨fun h => ⟨a, rfl, h⟩, fun ⟨_, ha, h⟩ => Except.ok.inj ha ▸ h⟩

theorem andThen_ok_iff {x : Except ε Unit} {y : Except ε β} {v : β} :
    (do x; y) = .ok v ↔ x = .ok () ∧ y = .ok v :=
  bind_ok_iff.trans ⟨fun ⟨_, hx, hy⟩ => ⟨hx, hy⟩, fun ⟨hx, hy⟩ => ⟨(), hx, hy⟩⟩

theorem forM_ok_iff {f : α → Except ε Unit} {xs : List α} : xs.forM f = .ok () ↔ ∀ x ∈ xs, f x = .ok () := by
  refine ⟨fun h => ?_, forM_ok⟩
  induction xs with
  | nil => nofun
  | cons x xs ih =>
    obtain ⟨hx, hxs⟩ := andThen_ok_iff.mp (show (do f x; xs.forM f) = .ok () from h)
    exact List.forall_mem_cons.mpr ⟨hx, ih hxs⟩

theorem guard_ok_iff {p : Prop} [Decidable p] {e : ε} :
    (if p then .ok () else .error e : Except ε Unit) = .ok () ↔ p := by
  by_cases hp : p <;> simp [hp]

end Steps

def dsts (is : List Instr) : List Reg := is.filterMap Instr.dst?

theorem dsts_append (is js : List Instr) : dsts (is ++ js) = dsts is ++ dsts js := List.filterMap_append

theorem dsts_cons (i : Instr) (is : List Instr) : dsts (i :: is) = i.dst?.toList ++ dsts is := by
  cases hi : i.dst? <;> simp [dsts, hi]

/-- The registers defined after instructions, the last first. -/
theorem reverse_dsts_append (i : Instr) (is : List Instr) (defined : List Reg) :
    (dsts is).reverse ++ (i.dst?.toList ++ defined) = (dsts (i :: is)).reverse ++ defined := by
  rw [dsts_cons]
  cases i.dst? <;> simp

/-- Which registers are defined after instructions, in whatever order they are listed. -/
theorem mem_reverse_append {js defined : List Reg} {r : Reg} : r ∈ js.reverse ++ defined ↔ r ∈ defined ++ js := by
  rw [List.mem_append, List.mem_append, List.mem_reverse, or_comm]

theorem mem_reverse_dsts_append {js is : List Instr} {defined : List Reg} {r : Reg} :
    r ∈ (dsts js).reverse ++ defined ++ dsts is ↔ r ∈ defined ++ dsts (js ++ is) := by
  rw [dsts_append, ← List.append_assoc, List.mem_append, mem_reverse_append, ← List.mem_append]

/-! ## Checks in order -/

/-- What is said of every element of a list and the elements before it. -/
theorem forall_cut_cons {α : Type} {p : List α → α → Prop} {x : α} {xs : List α} :
    (∀ before y after, x :: xs = before ++ y :: after → p before y) ↔
      p [] x ∧ ∀ before y after, xs = before ++ y :: after → p (x :: before) y := by
  constructor
  · intro h
    exact ⟨h [] x xs rfl, fun before y after he => h (x :: before) y after (congrArg (x :: ·) he)⟩
  · rintro ⟨hx, hxs⟩ before y after he
    cases before with
    | nil =>
      cases he
      exact hx
    | cons z before =>
      cases he
      exact hxs before y after rfl

section Checks
variable {f : Function} {b : Block} {late : Bool} {defined defined' : List Reg} {i : Instr} {is : List Instr}

theorem checkUses_ok_iff {uses : List Reg} : checkUses defined uses = .ok () ↔ ∀ r ∈ uses, r ∈ defined := by
  simp only [checkUses, forM_ok_iff, guard_ok_iff]

theorem checkArguments_ok_iff {operands : List Operand} :
    f.checkArguments operands = .ok () ↔ ∀ param, .arg param ∈ operands → param ∈ f.params := by
  rw [Function.checkArguments, forM_ok_iff]
  constructor
  · exact fun h param hparam => guard_ok_iff.mp (h _ hparam)
  · intro h operand ho
    cases operand with
    | arg param => exact guard_ok_iff.mpr (h param ho)
    | reg _ | const _ => rfl

theorem checkIncoming_ok_iff {ids : List BlockId} :
    f.checkIncoming b ids = .ok () ↔ ∀ id ∈ ids, f.hasEdge id b.id = true := by
  rw [Function.checkIncoming, forM_ok_iff]
  refine forall₂_congr fun id _ => ?_
  cases hid : f.block? id with
  | some source => exact guard_ok_iff
  | none =>
    refine ⟨nofun, fun he => ?_⟩
    obtain ⟨source, hs⟩ := Function.block?_isSome_of_hasEdge he
    cases hid.symm.trans hs

theorem checkPhi_ok_iff : f.checkPhi b late i = .ok () ↔ ∀ dst incoming, i = .phi dst incoming →
    late = false ∧ ∀ source ∈ incoming.map (·.2), f.hasEdge source b.id = true := by
  cases i with
  | phi dst incoming =>
    cases late with
    | false =>
      refine checkIncoming_ok_iff.trans ⟨?_, fun h => (h dst incoming rfl).2⟩
      rintro h _ _ ⟨⟩
      exact ⟨rfl, h⟩
    | true => exact ⟨nofun, fun h => absurd (h dst incoming rfl).1 nofun⟩
  | _ => exact ⟨fun _ => nofun, fun _ => rfl⟩

theorem checkResult_ok_iff {dst? : Option Reg} : checkResult defined dst? = .ok defined' ↔
    (∀ r, dst? = some r → r ∉ defined) ∧ dst?.toList ++ defined = defined' := by
  cases dst? with
  | none => simp [checkResult]
  | some r => by_cases hr : r ∈ defined <;> simp [checkResult, hr]

/-- An instruction that passes, and the registers defined after it. -/
theorem checkInstr_ok_iff : (do
      f.checkPhi b late i
      f.checkArguments i.operands
      checkUses defined i.uses
      checkResult defined i.dst?) = .ok defined' ↔
    i.Checked f b.id late defined ∧ i.dst?.toList ++ defined = defined' := by
  rw [andThen_ok_iff, andThen_ok_iff, andThen_ok_iff, checkPhi_ok_iff, checkArguments_ok_iff, checkUses_ok_iff,
    checkResult_ok_iff]
  constructor
  · rintro ⟨hphi, hargs, huses, hres, he⟩
    exact ⟨⟨hphi, hargs, huses, hres⟩, he⟩
  · rintro ⟨h, he⟩
    exact ⟨h.phi, h.arguments, h.uses, h.result, he⟩

/-- Which registers are defined matters, not in which order. -/
theorem Instr.Checked.congr {id : BlockId} (h : i.Checked f id late defined)
    (hd : ∀ r, r ∈ defined ↔ r ∈ defined') : i.Checked f id late defined' :=
  { h with
    uses := fun r hr => (hd r).mp (h.uses r hr)
    result := fun r hr hm => h.result r hr ((hd r).mpr hm) }

/-- The checks on the first instruction come before those on the others. -/
theorem checkInstrs_cons : f.checkInstrs b late defined (i :: is) = (do
    let defined ← (do
      f.checkPhi b late i
      f.checkArguments i.operands
      checkUses defined i.uses
      checkResult defined i.dst?)
    f.checkInstrs b (late || !i.isPhi) defined is) := by
  simp only [Function.checkInstrs, bind_assoc]

/-- The instructions of a block pass if each does after those before it. -/
theorem checkInstrs_ok_iff : f.checkInstrs b late defined is = .ok defined' ↔
    (∀ before i after, is = before ++ i :: after →
      i.Checked f b.id (late || before.any (!·.isPhi)) ((dsts before).reverse ++ defined)) ∧
    (dsts is).reverse ++ defined = defined' := by
  induction is generalizing late defined with
  | nil => simp [Function.checkInstrs, dsts]
  | cons i is ih =>
    rw [checkInstrs_cons, bind_ok_iff, forall_cut_cons]
    simp only [checkInstr_ok_iff, ih, List.any_cons, List.any_nil, Bool.or_false, Bool.or_assoc]
    constructor
    · rintro ⟨_, ⟨hi, rfl⟩, his, he⟩
      rw [reverse_dsts_append] at he
      exact ⟨⟨hi, by simpa only [reverse_dsts_append] using his⟩, he⟩
    · rintro ⟨⟨hi, his⟩, he⟩
      refine ⟨_, ⟨hi, rfl⟩, by simpa only [reverse_dsts_append] using his, ?_⟩
      rwa [reverse_dsts_append]

/-- A block that passes where `defined` are the registers defined before it. -/
structure Block.Checked (f : Function) (defined : List Reg) (b : Block) : Prop where
  instrs : ∀ before i after, b.instrs = before ++ i :: after →
    i.Checked f b.id (before.any (!·.isPhi)) (defined ++ dsts before)
  terminator : ∀ r ∈ b.terminator.uses, r ∈ defined ++ dsts b.instrs

theorem Block.Checked.congr (h : b.Checked f defined) (hd : ∀ r, r ∈ defined ↔ r ∈ defined') :
    b.Checked f defined' where
  instrs before i after he := (h.instrs before i after he).congr fun r => by
    rw [List.mem_append, List.mem_append, hd]
  terminator r hr := by
    rw [List.mem_append, ← hd, ← List.mem_append]
    exact h.terminator r hr

/-- A block that passes, and the registers defined after it. -/
theorem checkBlock_ok_iff {rest : List Reg → Except Defect Unit} : (do
      let defined ← f.checkInstrs b false defined b.instrs
      checkUses defined b.terminator.uses
      rest defined) = .ok () ↔
    b.Checked f defined ∧ rest ((dsts b.instrs).reverse ++ defined) = .ok () := by
  rw [bind_ok_iff]
  simp only [andThen_ok_iff, checkInstrs_ok_iff, checkUses_ok_iff, Bool.false_or]
  constructor
  · rintro ⟨_, ⟨hinstrs, rfl⟩, hterminator, hrest⟩
    refine ⟨⟨fun before i after he => ?_, fun r hr => ?_⟩, hrest⟩
    · exact (hinstrs before i after he).congr fun _ => mem_reverse_append
    · exact mem_reverse_append.mp (hterminator r hr)
  · rintro ⟨⟨hinstrs, hterminator⟩, hrest⟩
    refine ⟨_, ⟨fun before i after he => ?_, rfl⟩, fun r hr => ?_, hrest⟩
    · exact (hinstrs before i after he).congr fun _ => mem_reverse_append.symm
    · exact mem_reverse_append.mpr (hterminator r hr)

/-- The blocks pass if each does after those before it. -/
theorem checkBlocks_ok_iff {bs : List Block} : f.checkBlocks defined bs = .ok () ↔
    ∀ before b after, bs = before ++ b :: after →
      b.Checked f (defined ++ dsts (before.flatMap (·.instrs))) := by
  induction bs generalizing defined with
  | nil => simp [Function.checkBlocks]
  | cons b bs ih =>
    rw [Function.checkBlocks, checkBlock_ok_iff, ih, forall_cut_cons, List.flatMap_nil,
      show dsts [] = [] from rfl, List.append_nil]
    refine and_congr_right fun _ => forall₃_congr fun before b' after => imp_congr_right fun _ => ?_
    rw [List.flatMap_cons]
    exact ⟨fun h => h.congr fun _ => mem_reverse_dsts_append,
      fun h => h.congr fun _ => mem_reverse_dsts_append.symm⟩

end Checks

/-! ## Accepted functions -/

namespace Function
variable {f : Function}

theorem checkLabels_ok_iff {seen : List String} {bs : List Block} : checkLabels seen bs = .ok () ↔
    (bs.map (·.label)).Nodup ∧ ∀ b ∈ bs, b.label ∉ seen := by
  refine ⟨fun h => ?_, fun h => checkLabels_ok h.1 h.2⟩
  induction bs generalizing seen with
  | nil => simp
  | cons b bs ih =>
    rw [checkLabels] at h
    split at h
    · cases h
    · obtain ⟨hnodup, hseen⟩ := ih h
      simp only [List.mem_cons, not_or] at hseen
      refine ⟨List.nodup_cons.mpr ⟨fun hm => ?_, hnodup⟩,
        List.forall_mem_cons.mpr ⟨‹_›, fun b' hb' => (hseen b' hb').2⟩⟩
      obtain ⟨b', hb', he⟩ := List.mem_map.mp hm
      exact (hseen b' hb').1 he

/-- The functions that are accepted. -/
theorem verify_ok_iff : f.verify = .ok () ↔ (f.blocks.map (·.label)).Nodup ∧
    (∀ b ∈ f.blocks, ∀ id ∈ b.terminator.successors, (f.block? id).isSome) ∧
    ∀ before b after, f.blocks = before ++ b :: after → b.Checked f (dsts (before.flatMap (·.instrs))) := by
  have hmap : f.verify = .ok () ↔ f.check = .ok () := by
    rw [verify]
    cases f.check with
    | ok u => exact ⟨fun _ => rfl, fun _ => rfl⟩
    | error e => exact ⟨nofun, nofun⟩
  have htargets : f.checkTargets (f.blocks.flatMap (·.terminator.successors)) = .ok () ↔
      ∀ b ∈ f.blocks, ∀ id ∈ b.terminator.successors, (f.block? id).isSome := by
    rw [checkTargets, forM_ok_iff]
    simp only [guard_ok_iff, List.mem_flatMap, forall_exists_index, and_imp]
    exact ⟨fun h b hb id hid => h id b hb hid, fun h id b hb hid => h b hb id hid⟩
  rw [hmap, check, andThen_ok_iff, andThen_ok_iff, checkLabels_ok_iff, htargets, checkBlocks_ok_iff]
  simp only [List.nil_append, List.not_mem_nil, not_false_eq_true, implies_true, and_true]

end Function
end SmallLisp.IR
