import Mathlib.Data.List.Duplicate
import SmallLisp.Proofs.Paths

/-! # What verification decides

The rules that verification stands for are said here of a whole function, in whatever order they are checked
and whatever the checks remember on their way. A function is accepted exactly if it keeps all the rules, and
a defect that is reported is one that the function has.
-/
namespace SmallLisp.IR

/-! ## Rules -/

def Block.Joins (b : Block) (source : BlockId) : Prop :=
  ∃ dst incoming, .phi dst incoming ∈ b.instrs ∧ source ∈ incoming.map (·.2)

namespace Function
section Rules
variable (f : Function)

def Branches (source target : BlockId) : Prop :=
  ∃ b ∈ f.blocks, b.id = source ∧ target ∈ b.terminator.successors

def Mentions (id : BlockId) : Prop :=
  ∃ b ∈ f.blocks, id ∈ b.terminator.successors ∨ b.Joins id

/-- A register is read where the instructions `earlier` stand before in the text. -/
inductive ReadsAfter : (earlier : List Instr) → Reg → Prop
  | instr {before after : List Block} {b : Block} {here todo : List Instr} {i : Instr} {r : Reg}
      (hb : f.blocks = before ++ b :: after) (hi : b.instrs = here ++ i :: todo) (hr : r ∈ i.uses) :
    ReadsAfter (before.flatMap (·.instrs) ++ here) r
  | terminator {before after : List Block} {b : Block} {r : Reg} (hb : f.blocks = before ++ b :: after)
      (hr : r ∈ b.terminator.uses) : ReadsAfter (before.flatMap (·.instrs) ++ b.instrs) r

def results : List Reg := dsts (f.blocks.flatMap (·.instrs))

structure Valid : Prop where
  labels : (f.blocks.map (·.label)).Nodup
  exist : ∀ id, f.Mentions id → ∃ b ∈ f.blocks, b.id = id
  joins : ∀ b ∈ f.blocks, ∀ source, b.Joins source → f.Branches source b.id
  phis : ∀ b ∈ f.blocks, ∀ here dst incoming todo, b.instrs = here ++ .phi dst incoming :: todo →
    ∀ i ∈ here, i.isPhi = true
  arguments : ∀ b ∈ f.blocks, ∀ i ∈ b.instrs, ∀ param, .arg param ∈ i.operands → param ∈ f.params
  reads : ∀ earlier r, f.ReadsAfter earlier r → r ∈ dsts earlier
  results : f.results.Nodup

def Violates : Defect → Prop
  | .duplicateLabel label => (f.blocks.map (·.label)).Duplicate label
  | .unknownBlock id => f.Mentions id ∧ ∀ b ∈ f.blocks, b.id ≠ id
  | .phiNotPredecessor block incoming => ∃ b ∈ f.blocks, ∃ source ∈ f.blocks, b.label = block ∧
      source.label = incoming ∧ b.Joins source.id ∧ ¬ f.Branches source.id b.id
  | .phiNotAtBlockStart block => ∃ b ∈ f.blocks, b.label = block ∧ ∃ here dst incoming todo,
      b.instrs = here ++ .phi dst incoming :: todo ∧ ∃ i ∈ here, i.isPhi = false
  | .unknownArgument param => param ∉ f.params ∧ ∃ b ∈ f.blocks, ∃ i ∈ b.instrs, .arg param ∈ i.operands
  | .useBeforeDef r => ∃ earlier, f.ReadsAfter earlier r ∧ r ∉ dsts earlier
  | .duplicateDefinition r => f.results.Duplicate r

variable {f}

theorem hasEdge_iff {source target : BlockId} : f.hasEdge source target = true ↔ f.Branches source target := by
  simp [hasEdge, Branches]

theorem block?_eq_none_iff {id : BlockId} : f.block? id = none ↔ ∀ b ∈ f.blocks, b.id ≠ id := by
  simp [block?]

theorem exists_of_block? {id : BlockId} {b : Block} (h : f.block? id = some b) : b ∈ f.blocks ∧ b.id = id :=
  ⟨List.mem_of_find?_eq_some h, by simpa using List.find?_some h⟩

/-- A function that keeps the rules has no defect. -/
theorem Valid.not_violates (h : f.Valid) (d : Defect) : ¬ f.Violates d := by
  cases d with
  | duplicateLabel label => exact fun hd => hd.not_nodup h.labels
  | unknownBlock id =>
    rintro ⟨hid, hnone⟩
    obtain ⟨b, hb, rfl⟩ := h.exist id hid
    exact hnone b hb rfl
  | phiNotPredecessor block incoming =>
    rintro ⟨b, hb, source, -, -, -, hjoins, hnone⟩
    exact hnone (h.joins b hb source.id hjoins)
  | phiNotAtBlockStart block =>
    rintro ⟨b, hb, -, here, dst, incoming, todo, hinstrs, i, hi, hphi⟩
    rw [h.phis b hb here dst incoming todo hinstrs i hi] at hphi
    cases hphi
  | unknownArgument param =>
    rintro ⟨hparam, b, hb, i, hi, hoperand⟩
    exact hparam (h.arguments b hb i hi param hoperand)
  | useBeforeDef r =>
    rintro ⟨earlier, hread, hr⟩
    exact hr (h.reads earlier r hread)
  | duplicateDefinition r => exact fun hd => hd.not_nodup h.results

end Rules
end Function

/-! ## Where checks stop -/

section Steps
variable {α β ε : Type}

theorem bind_error_iff {x : Except ε α} {f : α → Except ε β} {e : ε} :
    (x >>= f) = .error e ↔ x = .error e ∨ ∃ a, x = .ok a ∧ f a = .error e := by
  cases x with
  | error e' =>
    refine ⟨fun h => .inl (congrArg _ (Except.error.inj h)), ?_⟩
    rintro (h | ⟨a, h, -⟩)
    · exact congrArg _ (Except.error.inj h)
    · cases h
  | ok a =>
    refine ⟨fun h => .inr ⟨a, rfl, h⟩, ?_⟩
    rintro (h | ⟨a', h, h'⟩)
    · cases h
    · cases h
      exact h'

theorem exists_of_forM_error {f : α → Except ε Unit} {xs : List α} {e : ε} (h : xs.forM f = .error e) :
    ∃ x ∈ xs, f x = .error e := by
  induction xs with
  | nil => cases h
  | cons x xs ih =>
    rcases bind_error_iff.mp (show (do f x; xs.forM f) = .error e from h) with hx | ⟨-, -, hxs⟩
    · exact ⟨x, List.mem_cons_self, hx⟩
    · obtain ⟨y, hy, he⟩ := ih hxs
      exact ⟨y, List.mem_cons_of_mem x hy, he⟩

theorem guard_error_iff {p : Prop} [Decidable p] {e e' : ε} :
    (if p then .ok () else .error e : Except ε Unit) = .error e' ↔ ¬ p ∧ e = e' := by
  by_cases hp : p <;> simp [hp]

end Steps

/-- What is wrong with an instruction in a block, where `late` says that another instruction than a phi came
before and `defined` are the registers defined before. -/
inductive Instr.Breaks (f : Function) (b : Block) (late : Bool) (defined : List Reg) : Instr → Defect → Prop
  | late {dst : Reg} {incoming : List (Operand × BlockId)} (h : late = true) :
    Breaks f b late defined (.phi dst incoming) (.phiNotAtBlockStart b.label)
  | unknown {dst : Reg} {incoming : List (Operand × BlockId)} {id : BlockId} (hid : id ∈ incoming.map (·.2))
      (h : f.block? id = none) : Breaks f b late defined (.phi dst incoming) (.unknownBlock id)
  | apart {dst : Reg} {incoming : List (Operand × BlockId)} {id : BlockId} {source : Block}
      (hid : id ∈ incoming.map (·.2)) (hsource : f.block? id = some source) (h : ¬ f.Branches id b.id) :
    Breaks f b late defined (.phi dst incoming) (.phiNotPredecessor b.label source.label)
  | argument {i : Instr} {param : String} (hoperand : .arg param ∈ i.operands) (h : param ∉ f.params) :
    Breaks f b late defined i (.unknownArgument param)
  | use {i : Instr} {r : Reg} (hr : r ∈ i.uses) (h : r ∉ defined) : Breaks f b late defined i (.useBeforeDef r)
  | result {i : Instr} {r : Reg} (hr : i.dst? = some r) (h : r ∈ defined) :
    Breaks f b late defined i (.duplicateDefinition r)

section Checks
variable {f : Function} {b : Block} {late : Bool} {defined defined' : List Reg} {i : Instr} {is : List Instr}
  {d : Defect}

theorem Instr.Breaks.congr (h : i.Breaks f b late defined d) (hd : ∀ r, r ∈ defined ↔ r ∈ defined') :
    i.Breaks f b late defined' d := by
  cases h with
  | late h => exact .late h
  | unknown hid h => exact .unknown hid h
  | apart hid hsource h => exact .apart hid hsource h
  | argument hoperand h => exact .argument hoperand h
  | use hr h => exact .use hr ((hd _).not.mp h)
  | result hr h => exact .result hr ((hd _).mp h)

theorem breaks_of_checkPhi (h : f.checkPhi b late i = .error d) : i.Breaks f b late defined d := by
  cases i with
  | phi dst incoming =>
    cases late with
    | true =>
      cases h
      exact .late rfl
    | false =>
      obtain ⟨id, hid, h⟩ := exists_of_forM_error h
      cases hsource : f.block? id with
      | none =>
        simp only [hsource] at h
        cases h
        exact .unknown hid hsource
      | some source =>
        simp only [hsource] at h
        obtain ⟨hedge, rfl⟩ := guard_error_iff.mp h
        exact .apart hid hsource (Function.hasEdge_iff.not.mp hedge)
  | _ => cases h

theorem breaks_of_checkInstr (h : (do
      f.checkPhi b late i
      f.checkArguments i.operands
      checkUses defined i.uses
      checkResult defined i.dst?) = .error d) : i.Breaks f b late defined d := by
  rcases bind_error_iff.mp h with h | ⟨-, -, h⟩
  · exact breaks_of_checkPhi h
  rcases bind_error_iff.mp h with h | ⟨-, -, h⟩
  · obtain ⟨operand, ho, h⟩ := exists_of_forM_error h
    cases operand with
    | arg param =>
      obtain ⟨hparam, rfl⟩ := guard_error_iff.mp h
      exact .argument ho hparam
    | reg _ | const _ => cases h
  rcases bind_error_iff.mp h with h | ⟨-, -, h⟩
  · obtain ⟨r, hr, h⟩ := exists_of_forM_error h
    obtain ⟨hdefined, rfl⟩ := guard_error_iff.mp h
    exact .use hr hdefined
  · cases hdst : i.dst? with
    | none =>
      rw [hdst] at h
      cases h
    | some r =>
      rw [hdst, checkResult] at h
      split at h
      case isTrue hr =>
        cases h
        exact .result hdst hr
      case isFalse => cases h

/-- Checking the instructions of a block stops at one of them. -/
theorem exists_breaks_of_checkInstrs (h : f.checkInstrs b late defined is = .error d) : ∃ here i todo,
    is = here ++ i :: todo ∧ i.Breaks f b (late || here.any (!·.isPhi)) ((dsts here).reverse ++ defined) d := by
  induction is generalizing late defined with
  | nil => cases h
  | cons i is ih =>
    rw [checkInstrs_cons] at h
    rcases bind_error_iff.mp h with h | ⟨defined', hdefined, h⟩
    · exact ⟨[], i, is, rfl, by simpa [dsts] using breaks_of_checkInstr h⟩
    · obtain ⟨here, j, todo, rfl, hj⟩ := ih h
      obtain ⟨-, rfl⟩ := checkInstr_ok_iff.mp hdefined
      refine ⟨i :: here, j, todo, rfl, ?_⟩
      rw [reverse_dsts_append] at hj
      simpa only [List.any_cons, Bool.or_assoc] using hj

/-- Checking blocks stops at an instruction or at a terminator. -/
theorem exists_breaks_of_checkBlocks {bs : List Block} (h : f.checkBlocks defined bs = .error d) :
    ∃ before b after, bs = before ++ b :: after ∧
      ((∃ here i todo, b.instrs = here ++ i :: todo ∧ i.Breaks f b (here.any (!·.isPhi))
        (defined ++ dsts (before.flatMap (·.instrs) ++ here)) d) ∨
      ∃ r ∈ b.terminator.uses, r ∉ defined ++ dsts (before.flatMap (·.instrs) ++ b.instrs) ∧
        d = .useBeforeDef r) := by
  induction bs generalizing defined with
  | nil => cases h
  | cons b bs ih =>
    rcases bind_error_iff.mp h with h | ⟨defined', hdefined, h⟩
    · obtain ⟨here, i, todo, hinstrs, hi⟩ := exists_breaks_of_checkInstrs h
      exact ⟨[], b, bs, rfl, .inl ⟨here, i, todo, hinstrs, hi.congr fun _ => mem_reverse_append⟩⟩
    obtain ⟨-, rfl⟩ := checkInstrs_ok_iff.mp hdefined
    rcases bind_error_iff.mp h with h | ⟨-, -, h⟩
    · obtain ⟨r, hr, h⟩ := exists_of_forM_error h
      obtain ⟨hn, rfl⟩ := guard_error_iff.mp h
      exact ⟨[], b, bs, rfl, .inr ⟨r, hr, mt mem_reverse_append.mpr hn, rfl⟩⟩
    · obtain ⟨before, b', after, rfl, hb'⟩ := ih h
      refine ⟨b :: before, b', after, rfl, ?_⟩
      simp only [List.flatMap_cons, List.append_assoc]
      refine hb'.imp ?_ ?_
      · rintro ⟨here, i, todo, hinstrs, hi⟩
        exact ⟨here, i, todo, hinstrs, hi.congr fun _ => mem_reverse_dsts_append⟩
      · rintro ⟨r, hr, hn, hd⟩
        exact ⟨r, hr, mt mem_reverse_dsts_append.mpr hn, hd⟩

end Checks

/-! ## Accepted and rejected functions -/

namespace Function
variable {f : Function}

theorem duplicate_of_checkLabels {seen : List String} {bs : List Block} {d : Defect}
    (h : checkLabels seen bs = .error d) :
    ∃ label, d = .duplicateLabel label ∧ (seen ++ bs.map (·.label)).Duplicate label := by
  induction bs generalizing seen with
  | nil => cases h
  | cons b bs ih =>
    rw [checkLabels] at h
    split at h
    case isTrue hb =>
      cases h
      refine ⟨b.label, rfl, ?_⟩
      rw [List.map_cons, List.duplicate_iff_two_le_count, List.count_append, List.count_cons_self]
      have := List.count_pos_iff.mpr hb
      omega
    case isFalse =>
      obtain ⟨label, hd, hlabel⟩ := ih h
      refine ⟨label, hd, ?_⟩
      rw [List.duplicate_iff_two_le_count] at hlabel ⊢
      rwa [List.map_cons, List.perm_middle.count_eq]

/-- An instruction that breaks a rule in its place is what is wrong with the function. -/
theorem violates_of_breaks {before after : List Block} {b : Block} {here todo : List Instr} {i : Instr} {d : Defect}
    (hb : f.blocks = before ++ b :: after) (hi : b.instrs = here ++ i :: todo)
    (h : i.Breaks f b (here.any (!·.isPhi)) (dsts (before.flatMap (·.instrs) ++ here)) d) : f.Violates d := by
  have hmem : b ∈ f.blocks := by simp [hb]
  have hinstr : i ∈ b.instrs := by simp [hi]
  cases h with
  | @late dst incoming h =>
    obtain ⟨j, hj, hphi⟩ := List.any_eq_true.mp h
    exact ⟨b, hmem, rfl, here, dst, incoming, todo, hi, j, hj, by simpa using hphi⟩
  | @unknown dst incoming id hid h =>
    exact ⟨⟨b, hmem, .inr ⟨dst, incoming, hinstr, hid⟩⟩, block?_eq_none_iff.mp h⟩
  | @apart dst incoming id source hid hsource h =>
    obtain ⟨hs, rfl⟩ := exists_of_block? hsource
    exact ⟨b, hmem, source, hs, rfl, rfl, ⟨dst, incoming, hinstr, hid⟩, h⟩
  | argument hoperand h => exact ⟨h, b, hmem, i, hinstr, hoperand⟩
  | use hr h => exact ⟨_, .instr hb hi hr, h⟩
  | @result _ r hr h =>
    rw [Violates, results, hb, List.flatMap_append, List.flatMap_cons, hi, List.append_assoc, ← List.append_assoc,
      dsts_append, List.cons_append, dsts_cons, hr, List.duplicate_iff_two_le_count, List.count_append,
      Option.toList_some, List.count_append, List.count_singleton_self]
    have := List.count_pos_iff.mpr h
    omega

/-- What the checks report is there. -/
theorem violates_of_check {d : Defect} (h : f.check = .error d) : f.Violates d := by
  rcases bind_error_iff.mp h with h | ⟨-, -, h⟩
  · obtain ⟨label, rfl, hlabel⟩ := duplicate_of_checkLabels h
    exact hlabel
  rcases bind_error_iff.mp h with h | ⟨-, -, h⟩
  · obtain ⟨id, hid, h⟩ := exists_of_forM_error h
    obtain ⟨b, hb, hid⟩ := List.mem_flatMap.mp hid
    obtain ⟨hnone, rfl⟩ := guard_error_iff.mp h
    exact ⟨⟨b, hb, .inl hid⟩, block?_eq_none_iff.mp (Option.not_isSome_iff_eq_none.mp hnone)⟩
  · obtain ⟨before, b, after, hb, ⟨here, i, todo, hi, hbreaks⟩ | ⟨r, hr, hdefined, rfl⟩⟩ :=
      exists_breaks_of_checkBlocks h
    · exact violates_of_breaks hb hi hbreaks
    · exact ⟨_, .terminator hb hr, hdefined⟩

section Accepted
variable (h : f.verify = .ok ()) {b : Block}
include h

theorem checked_of_verify {before after : List Block} {here todo : List Instr} {i : Instr}
    (hb : f.blocks = before ++ b :: after) (hi : b.instrs = here ++ i :: todo) :
    i.Checked f b.id (here.any (!·.isPhi)) (dsts (before.flatMap (·.instrs) ++ here)) := by
  rw [dsts_append]
  exact ((verify_ok_iff.mp h).2.2 before b after hb).instrs here i todo hi

theorem branches_of_joins {source : BlockId} (hb : b ∈ f.blocks) (hj : b.Joins source) : f.Branches source b.id := by
  obtain ⟨before, after, hb⟩ := List.append_of_mem hb
  obtain ⟨dst, incoming, hphi, hsource⟩ := hj
  obtain ⟨here, todo, hi⟩ := List.append_of_mem hphi
  exact hasEdge_iff.mp (((checked_of_verify h hb hi).phi dst incoming rfl).2 source hsource)

/-- An accepted function keeps all rules. -/
theorem valid_of_verify : f.Valid where
  labels := (verify_ok_iff.mp h).1
  exist := by
    rintro id ⟨b, hb, hid | hid⟩
    · obtain ⟨target, htarget⟩ := Option.isSome_iff_exists.mp ((verify_ok_iff.mp h).2.1 b hb id hid)
      exact ⟨target, exists_of_block? htarget⟩
    · obtain ⟨source, hs, rfl, -⟩ := branches_of_joins h hb hid
      exact ⟨source, hs, rfl⟩
  joins b hb source := branches_of_joins h hb
  phis b hb here dst incoming todo hi j hj := by
    obtain ⟨before, after, hb⟩ := List.append_of_mem hb
    have hlate := ((checked_of_verify h hb hi).phi dst incoming rfl).1
    simpa using List.any_eq_false.mp hlate j hj
  arguments b hb i hi := by
    obtain ⟨before, after, hb⟩ := List.append_of_mem hb
    obtain ⟨here, todo, hi⟩ := List.append_of_mem hi
    exact (checked_of_verify h hb hi).arguments
  reads earlier r hr := by
    cases hr with
    | instr hb hi hr => exact (checked_of_verify h hb hi).uses r hr
    | @terminator before after b r hb hr =>
      rw [dsts_append]
      exact ((verify_ok_iff.mp h).2.2 before b after hb).terminator r hr
  results := nodup_dsts h

end Accepted

/-- Verification accepts exactly the functions that keep all rules, and what it reports of another function
is wrong with it. -/
theorem verify_decides (f : Function) : (f.verify = .ok () ↔ f.Valid) ∧
    ∀ e, f.verify = .error e → e.function = f.name ∧ f.Violates e.defect := by
  have herror : ∀ e, f.verify = .error e → e.function = f.name ∧ f.Violates e.defect := by
    intro e h
    rw [verify] at h
    cases hcheck : f.check with
    | ok u => simp [hcheck, Except.mapError] at h
    | error d =>
      rw [hcheck] at h
      cases h
      exact ⟨rfl, violates_of_check hcheck⟩
  refine ⟨⟨valid_of_verify, fun hvalid => ?_⟩, herror⟩
  cases h : f.verify with
  | ok u => rfl
  | error e => exact absurd (herror e h).2 (hvalid.not_violates e.defect)

end Function
end SmallLisp.IR
