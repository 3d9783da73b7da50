import Mathlib.Data.List.Induction
import SmallLisp.Proofs.CompiledChecks
import SmallLisp.Proofs.Paths

/-! # The control flow of compiled functions

Verification looks at branches and phis one by one. It lets branches go back, and it does not ask whether
a phi has a value for every way into its block. Compiled functions are better formed: code only branches to
blocks behind it, each of these is the target of some branch, and a phi has one value for each edge to its
block. This holds of the code of every piece, whatever edges there are in the code around it.
-/
namespace SmallLisp
open IR (Reg BlockId Operand Instr Item Code Terminator)

namespace IR

def Instr.Joins (edges : List (BlockId × BlockId)) (id : BlockId) : Instr → Prop
  | .phi _ incoming =>
    (incoming.map (·.2)).Nodup ∧ ∀ source, source ∈ incoming.map (·.2) ↔ (source, id) ∈ edges
  | _ => True

namespace Code

def Forward : Code → Prop
  | [] => True
  | .instr _ :: c => Forward c
  | .next t id _ :: c => t.successors ≠ [] ∧ (∀ target ∈ t.successors, target ∈ id :: ids c) ∧ Forward c

def Joins (edges : List (BlockId × BlockId)) (id : BlockId) : Code → Prop
  | [] => True
  | .instr i :: c => i.Joins edges id ∧ Joins edges id c
  | .next _ target _ :: c => Joins edges target c

/-- The phis of code join all edges to their blocks, if no edges from elsewhere lead into the code. -/
def Joined (id : BlockId) (c : Code) : Prop :=
  ∀ before after, (∀ e ∈ before ++ after, e.2 ∉ ids c) → Joins (before ++ (edges id c ++ after)) id c

section Lines
variable {id : BlockId} {c d : Code}

theorem Forward.append (hc : Forward c) (hd : Forward d) : Forward (c ++ d) := by
  induction c with
  | nil => exact hd
  | cons item c ih =>
    cases item with
    | instr i => exact ih hc
    | next t target label =>
      refine ⟨hc.1, fun other ht => ?_, ih hc.2.2⟩
      change other ∈ target :: ids (c ++ d)
      rw [ids_append]
      exact List.mem_append_left _ (hc.2.1 other ht)

theorem Forward.mem_ids (h : Forward c) {e : BlockId × BlockId} (he : e ∈ edges id c) : e.2 ∈ ids c := by
  induction c generalizing id with
  | nil => cases he
  | cons item c ih =>
    cases item with
    | instr i => exact ih h he
    | next t target label =>
      rcases List.mem_append.mp he with he | he
      · obtain ⟨other, ht, rfl⟩ := List.mem_map.mp he
        exact h.2.1 _ ht
      · exact List.mem_cons_of_mem _ (ih h.2.2 he)

theorem joins_append {edges : List (BlockId × BlockId)} :
    Joins edges id (c ++ d) ↔ Joins edges id c ∧ Joins edges (last id c) d := by
  induction c generalizing id with
  | nil => simp [Joins]
  | cons item c ih =>
    cases item with
    | instr i => exact (and_congr_right' ih).trans and_assoc.symm
    | next t target label => exact ih

theorem Joined.append (hc : Joined id c) (hd : Joined (last id c) d)
    (hcd : ∀ e ∈ edges id c, e.2 ∉ ids d) (hdc : ∀ e ∈ edges (last id c) d, e.2 ∉ ids c) :
    Joined id (c ++ d) := by
  intro before after h
  rw [List.forall_mem_append] at h
  simp only [ids_append, List.mem_append, not_or] at h
  rw [joins_append, edges_append]
  constructor
  · rw [List.append_assoc]
    refine hc before _ ?_
    simp only [List.forall_mem_append]
    exact ⟨fun e he => (h.1 e he).1, hdc, fun e he => (h.2 e he).1⟩
  · have hrest := hd (before ++ edges id c) after ?_
    · simpa only [List.append_assoc] using hrest
    simp only [List.forall_mem_append]
    exact ⟨⟨fun e he => (h.1 e he).2, hcd⟩, fun e he => (h.2 e he).2⟩

/-- Instructions before a branch change nothing as long as they are no phis. -/
theorem Joined.instr {i : Instr} (hi : i.isPhi = false) (hc : Joined id c) : Joined id (.instr i :: c) := by
  intro before after h
  refine ⟨?_, hc before after h⟩
  cases i with
  | phi => cases hi
  | _ => exact trivial

theorem joined_nil : Joined id [] := fun _ _ _ => trivial

end Lines

section Choices
variable {a yes no done : BlockId} {c d : Code} {flag r : Reg} {v w : Operand} {l m n : String}

/-- After a choice with one arm, a phi joins the end of the arm and the block that chose. -/
theorem Joined.choice (hc : Joined yes c) (hf : Forward c) (hdone : done ∉ ids c) (hne : yes ≠ done)
    (hyes : yes ∉ ids c) (hlast : last yes c ≠ a) :
    Joined a (.next (.condBr flag yes done) yes l ::
      (c ++ [.next (.br done) done m, .instr (.phi r [(v, last yes c), (w, a)])])) := by
  intro before after h
  have hfresh : ∀ e ∈ before ++ after, e.2 ≠ done ∧ e.2 ∉ ids c := fun e he => by
    have hother := h e he
    simp at hother
    grind
  rw [List.forall_mem_append] at hfresh
  have harm := hc (before ++ [(a, yes), (a, done)]) ((last yes c, done) :: after) (by grind)
  simp only [Joins, joins_append, edges_next, edges_append]
  refine ⟨by simpa using harm, ?_⟩
  have hnc : ∀ s, (s, done) ∉ edges yes c := fun s he => hdone (hf.mem_ids he)
  have hnb : ∀ s, (s, done) ∉ before := fun s he => (hfresh.1 _ he).1 rfl
  have hna : ∀ s, (s, done) ∉ after := fun s he => (hfresh.2 _ he).1 rfl
  simp [Instr.Joins, hnc, hnb, hna, hlast, hne.symm, or_comm]

/-- After a choice with two arms, a phi joins the ends of the arms. -/
theorem Joined.choiceElse (hc : Joined yes c) (hd : Joined no d) (hfc : Forward c) (hfd : Forward d)
    (hdistinct : (yes :: ids c ++ (no :: ids d ++ [done])).Nodup) :
    Joined a (.next (.condBr flag yes no) yes l :: (c ++ .next (.br done) no m ::
      (d ++ [.next (.br done) done n, .instr (.phi r [(v, last yes c), (w, last no d)])]))) := by
  intro before after h
  simp only [List.cons_append, List.nodup_cons, List.nodup_append, List.mem_append, List.mem_cons,
    not_or, List.not_mem_nil, or_false] at hdistinct
  obtain ⟨⟨hyes, hyes', hyesd, hyesdone⟩, -, ⟨⟨hno, hnodone⟩, -, -, hdone⟩, hdisjoint⟩ := hdistinct
  have hfresh : ∀ e ∈ before ++ after, e.2 ∉ ids c ∧ e.2 ∉ ids d ∧ e.2 ≠ done := fun e he => by
    have hother := h e he
    simp at hother
    grind
  rw [List.forall_mem_append] at hfresh
  have hec : ∀ e ∈ edges yes c, e.2 ∉ ids d ∧ e.2 ≠ done := fun e he => by
    have := hfc.mem_ids he
    grind
  have hed : ∀ e ∈ edges no d, e.2 ∉ ids c ∧ e.2 ≠ done := fun e he => by
    have := hfd.mem_ids he
    grind
  have harm₁ := hc (before ++ [(a, yes), (a, no)])
    ((last yes c, done) :: (edges no d ++ (last no d, done) :: after)) (by grind)
  have harm₂ := hd (before ++ (a, yes) :: (a, no) :: (edges yes c ++ [(last yes c, done)]))
    ((last no d, done) :: after) (by grind)
  simp only [Joins, joins_append, edges_next, edges_append]
  refine ⟨by simpa using harm₁, by simpa using harm₂, ?_⟩
  have hnc : ∀ s, (s, done) ∉ edges yes c := fun s he => (hec _ he).2 rfl
  have hnd : ∀ s, (s, done) ∉ edges no d := fun s he => (hed _ he).2 rfl
  have hnb : ∀ s, (s, done) ∉ before := fun s he => (hfresh.1 _ he).2.2 rfl
  have hna : ∀ s, (s, done) ∉ after := fun s he => (hfresh.2 _ he).2.2 rfl
  have hne : last yes c ≠ last no d := by
    have := last_mem yes c
    have := last_mem no d
    grind
  simp [Instr.Joins, hnc, hnd, hnb, hna, hne, Ne.symm hyesdone, Ne.symm hnodone]

end Choices

section Blocks
variable {final : Terminator} (id : BlockId) (label : String) {c : Code}


theorem Forward.exists_terminators (h : Forward c) :
    ∃ ts, (blocks final id label c).map (·.terminator) = ts ++ [final] ∧ ∀ t ∈ ts, t.successors ≠ [] := by
  induction c generalizing id label with
  | nil => exact ⟨[], rfl, nofun⟩
  | cons item c ih =>
    cases item with
    | instr i => exact ih id label h
    | next t target name =>
      obtain ⟨ts, hts, hall⟩ := ih target name h.2.2
      exact ⟨t :: ts, congrArg (t :: ·) hts, List.forall_mem_cons.mpr ⟨h.1, hall⟩⟩

theorem Forward.blocks (h : Forward c) (hfinal : final.successors = []) :
    Function.Forward (blocks final id label c) := by
  induction c generalizing id label with
  | nil =>
    refine ⟨fun other ht => ?_, trivial⟩
    change other ∈ final.successors at ht
    rw [hfinal] at ht
    cases ht
  | cons item c ih =>
    cases item with
    | instr i => exact ih id label h
    | next t target name =>
      refine ⟨fun other ht => ?_, ih target name h.2.2⟩
      rw [show later final _ = Code.blocks final target name c from rfl, map_id_blocks]
      exact h.2.1 other ht

theorem Joins.of_mem_blocks {edges : List (BlockId × BlockId)} (h : Joins edges id c) {b : Block}
    (hb : b ∈ Code.blocks final id label c) {i : Instr} (hi : i ∈ b.instrs) : i.Joins edges b.id := by
  induction c generalizing id label b with
  | nil =>
    rw [List.mem_singleton.mp hb] at hi
    cases hi
  | cons item c ih =>
    cases item with
    | instr j =>
      rcases List.mem_cons.mp hb with rfl | hb
      · rcases List.mem_cons.mp hi with rfl | hi
        · exact h.1
        · exact ih (b := ⟨id, label, instrs c, exit final c⟩) id label h.2 List.mem_cons_self hi
      · exact ih id label h.2 (List.mem_cons_of_mem _ hb) hi
    | next t target name =>
      rcases List.mem_cons.mp hb with rfl | hb
      · cases hi
      · exact ih target name h hb hi

end Blocks
end Code

namespace Function

def predecessors (f : Function) (id : BlockId) : List BlockId :=
  (f.blocks.filter fun b => id ∈ b.terminator.successors).map (·.id)

theorem mem_predecessors {f : Function} {source id : BlockId} :
    source ∈ f.predecessors id ↔ ∃ b ∈ f.blocks, id ∈ b.terminator.successors ∧ b.id = source := by
  simp only [predecessors, List.mem_map, List.mem_filter, decide_eq_true_eq, and_assoc]

/-- A function in which control goes forward from its first block to its last, which alone returns, and
phis have one value for each block that control may come from. -/
structure WellShaped (f : Function) : Prop where
  distinct : (f.blocks.map (·.id)).Nodup
  forward : Forward f.blocks
  reachable : ∀ b ∈ f.blocks, ∃ before, f.Path before b
  returns : ∃ branches value, f.blocks.map (·.terminator) = branches ++ [.ret value] ∧
    ∀ v, .ret v ∉ branches
  phis : ∀ b ∈ f.blocks, ∀ dst incoming, .phi dst incoming ∈ b.instrs →
    (incoming.map (·.2)).Perm (f.predecessors b.id)

section Layout
variable {f : Function}

/-- Branches of blocks in a row lead to blocks after the first. -/
theorem Forward.mem_tail {b source : Block} {rest : List Block} (h : Forward (b :: rest))
    (hsource : source ∈ b :: rest) {id : BlockId} (hedge : id ∈ source.terminator.successors) :
    id ∈ rest.map (·.id) := by
  induction rest generalizing b with
  | nil =>
    rw [List.mem_singleton.mp hsource] at hedge
    cases h.1 id hedge
  | cons next rest ih =>
    rcases List.mem_cons.mp hsource with rfl | hsource
    · exact h.1 id hedge
    · exact List.mem_cons_of_mem _ (ih h.2 hsource)

/-- The predecessors of a block stand before it. -/
theorem Forward.mem_before {before after : List Block} {b source : Block} (h : Forward (before ++ b :: after))
    (hdistinct : ((before ++ b :: after).map (·.id)).Nodup) (hsource : source ∈ before ++ b :: after)
    (hedge : b.id ∈ source.terminator.successors) : source ∈ before := by
  induction before with
  | nil => exact absurd (h.mem_tail hsource hedge) (List.nodup_cons.mp hdistinct).1
  | cons x before ih =>
    rcases List.mem_cons.mp hsource with rfl | hsource
    · exact List.mem_cons_self
    · exact List.mem_cons_of_mem _ (ih h.2 (List.nodup_cons.mp hdistinct).2 hsource)

/-- If every block but the first has a predecessor and all branches go forward, then every block can be
reached: its predecessors stand before it, so by induction on the layout they are reached first. -/
theorem exists_path (hdistinct : (f.blocks.map (·.id)).Nodup) (hforward : Forward f.blocks)
    (hentered : ∀ b ∈ f.blocks.tail, ∃ source ∈ f.blocks, b.id ∈ source.terminator.successors) {b : Block}
    (hb : b ∈ f.blocks) : ∃ before, f.Path before b := by
  suffices hall : ∀ front rest, f.blocks = front ++ rest → ∀ b ∈ front, ∃ before, f.Path before b from
    hall f.blocks [] (List.append_nil _).symm b hb
  intro front
  induction front using List.reverseRecOn with
  | nil => exact nofun
  | append_singleton front b ih =>
    intro rest he x hx
    rw [List.append_assoc, List.singleton_append] at he
    rcases List.mem_append.mp hx with hx | hx
    · exact ih _ he x hx
    rw [List.mem_singleton.mp hx]
    cases front with
    | nil => exact ⟨[], .entry (congrArg List.head? he)⟩
    | cons first front =>
      obtain ⟨source, hsource, hedge⟩ := hentered b (by simp [he])
      rw [he] at hdistinct hforward hsource
      obtain ⟨before, hpath⟩ := ih _ he source (hforward.mem_before hdistinct hsource hedge)
      exact ⟨_, hpath.step (by simp [he]) hedge⟩

end Layout

/-- A function that consists of forward code whose phis join its edges. -/
theorem Consists.wellShaped {f : Function} {c : Code} {v : Operand} (hf : f.Consists (.ret v) c)
    (hforward : c.Forward) (hentered : ∀ id ∈ c.ids, ∃ source, (source, id) ∈ c.edges ⟨0⟩)
    (hjoined : c.Joined ⟨0⟩) : f.WellShaped := by
  have hedge : ∀ source target, (source, target) ∈ c.edges ⟨0⟩ ↔ source ∈ f.predecessors target := by
    intro source target
    have hedges := Code.edges_blocks (.ret v) ⟨0⟩ "entry" c
    rw [← hf.blocks, show Terminator.successors (.ret v) = [] from rfl, List.map_nil, List.append_nil] at hedges
    rw [← hedges, mem_predecessors]
    constructor
    · intro he
      obtain ⟨b, hb, he⟩ := List.mem_flatMap.mp he
      obtain ⟨_, ht, he⟩ := List.mem_map.mp he
      cases he
      exact ⟨b, hb, ht, rfl⟩
    · rintro ⟨b, hb, ht, rfl⟩
      exact List.mem_flatMap.mpr ⟨b, hb, List.mem_map_of_mem ht⟩
  have hforward' : Forward f.blocks := hf.blocks ▸ hforward.blocks _ _ rfl
  refine ⟨hf.nodup, hforward', fun b hb => exists_path hf.nodup hforward' ?_ hb, ?_, ?_⟩
  · intro b hb
    have hid : b.id ∈ c.ids := by
      rw [← Code.map_id_later (.ret v)]
      rw [hf.blocks] at hb
      exact List.mem_map_of_mem hb
    obtain ⟨_, hsource⟩ := hentered _ hid
    obtain ⟨source, hmem, hsuccessor, -⟩ := mem_predecessors.mp ((hedge _ _).mp hsource)
    exact ⟨source, hmem, hsuccessor⟩
  · obtain ⟨ts, hts, hall⟩ := hforward.exists_terminators ⟨0⟩ "entry"
    refine ⟨ts, v, hf.blocks ▸ hts, fun w hw => hall _ hw rfl⟩
  · intro b hb dst incoming hphi
    have hjoins := hjoined [] [] nofun
    rw [List.nil_append, List.append_nil] at hjoins
    rw [hf.blocks] at hb
    obtain ⟨hnodup, hmem⟩ := hjoins.of_mem_blocks _ _ hb hphi
    have hpred : (f.predecessors b.id).Nodup := hf.nodup.sublist (List.filter_sublist.map _)
    exact (List.perm_ext_iff_of_nodup hnodup hpred).mpr fun source => (hmem source).trans (hedge source b.id)

end Function
end IR

section Pieces
variable {abi : IR.Abi} {known : String → Nat → Prop} {piece : Piece} {σ σ' : Scope Storage}
  {p p' : Point} {code : Code}

theorem writeCode_forward (fd buffer length r : Reg) : (writeCode abi fd buffer length r p).Forward :=
  ⟨nofun, by simp, nofun, by simp, nofun, by simp, trivial⟩

theorem Emits.forward (h : Emits abi known piece σ p code σ' p') : code.Forward := by
  induction h with
  | int | name | define | noOperands => trivial
  | arith _ _ _ ih | leaf _ ih | result _ ih => exact ih
  | compare _ _ _ ih | user _ _ _ _ ih | spill _ ih => exact ih.append trivial
  | operand _ _ ih₁ ih₂ | more _ _ _ ih₁ ih₂ => exact ih₁.append ih₂
  | node _ _ ih₁ ih₂ | test _ _ ih₁ ih₂ => exact ih₁.append (ih₂.append trivial)
  | branch _ _ _ _ ih₁ ih₂ => exact ih₁.append ⟨nofun, by simp, ih₂.append ⟨nofun, by simp, trivial⟩⟩
  | branchElse _ _ _ _ _ ih₁ ih₂ ih₃ =>
    refine ih₁.append ⟨nofun, by simp, ih₂.append ⟨nofun, by simp, ?_⟩⟩
    exact ih₃.append ⟨nofun, by simp, trivial⟩
  | write _ _ _ _ _ ih₁ ih₂ ih₃ => exact ih₁.append (ih₂.append (ih₃.append (writeCode_forward _ _ _ _)))

/-- Every block of code is branched to from the code. -/
theorem Emits.exists_edge (h : Emits abi known piece σ p code σ' p') {id : BlockId} (hid : id ∈ code.ids) :
    ∃ source, (source, id) ∈ code.edges p.current := by
  induction h generalizing id with
  | int | name | define | noOperands => cases hid
  | arith _ _ _ ih | leaf _ ih | result _ ih => exact ih hid
  | compare _ _ _ ih | user _ _ _ _ ih | spill _ ih => exact (ih (by simpa using hid)).imp fun _ => by simp
  | operand h₁ _ ih₁ ih₂ | more _ h₁ _ ih₁ ih₂ | node h₁ _ ih₁ ih₂ | test h₁ _ ih₁ ih₂ =>
    have := h₁.current
    grind
  | branch _ _ h₁ h₂ ih₁ ih₂ =>
    have := h₁.current
    have := h₂.current
    grind
  | branchElse _ _ h₁ h₂ h₃ ih₁ ih₂ ih₃ | write _ _ h₁ h₂ h₃ ih₁ ih₂ ih₃ =>
    have := h₁.current
    have := h₂.current
    have := h₃.current
    simp at hid
    simp
    grind

/-- Code with fresh blocks can follow code that goes forward. -/
theorem Emits.joined_append {rest : Code} (h : Emits abi known piece σ p code σ' p')
    (hcode : code.Joined p.current) (hrest : rest.Joined p'.current) (hforward : rest.Forward)
    (hids : ∀ id ∈ rest.ids, p'.block ≤ id.index) : Code.Joined p.current (code ++ rest) := by
  rw [h.current] at hrest
  refine hcode.append hrest (fun e he hm => ?_) fun e he hm => ?_
  · have := (h.mem_ids (h.forward.mem_ids he)).2
    have := hids _ hm
    omega
  · have := hids _ (hforward.mem_ids he)
    have := (h.mem_ids hm).2
    omega

theorem writeCode_joined (fd buffer length r : Reg) :
    (writeCode abi fd buffer length r p).Joined p.current := by
  refine .instr rfl (.instr rfl (.instr rfl ?_))
  exact .choiceElse (c := []) (d := []) Code.joined_nil Code.joined_nil trivial trivial (by simp)

theorem Emits.joined (h : Emits abi known piece σ p code σ' p') (hp : p.current.index < p.block) :
    code.Joined p.current := by
  induction h with
  | int | name | define => exact .instr rfl Code.joined_nil
  | noOperands => exact Code.joined_nil
  | arith _ _ _ ih | leaf _ ih | result _ ih => exact ih hp
  | compare _ _ h ih | user _ _ _ h ih =>
    exact h.joined_append (ih hp) (.instr rfl Code.joined_nil) trivial (by simp)
  | spill h ih =>
    exact h.joined_append (ih hp) (.instr rfl (.instr rfl Code.joined_nil)) trivial (by simp)
  | operand h₁ h₂ ih₁ ih₂ | more _ h₁ h₂ ih₁ ih₂ =>
    exact h₁.joined_append (ih₁ hp) (ih₂ (h₁.current_lt hp)) h₂.forward fun id hid => (h₂.mem_ids hid).1
  | node h₁ h₂ ih₁ ih₂ | test h₁ h₂ ih₁ ih₂ =>
    refine h₁.joined_append (ih₁ hp) (h₂.joined_append (ih₂ (h₁.current_lt hp)) (.instr rfl Code.joined_nil)
      trivial (by simp)) (h₂.forward.append trivial) ?_
    simpa using fun id hid => (h₂.mem_ids hid).1
  | branch _ _ h₁ h₂ ih₁ ih₂ =>
    have hlt := h₁.current_lt hp
    have hids := @h₂.mem_ids
    refine h₁.joined_append (ih₁ hp) ?_ ⟨nofun, by simp, h₂.forward.append ⟨nofun, by simp, trivial⟩⟩
      (by simp; grind)
    have hcur := h₂.current_eq_or
    have hlast := h₂.current
    rw [hlast] at hcur ⊢
    exact .choice (ih₂ (by simp)) h₂.forward (by grind) (by simp) (by grind) (by grind)
  | branchElse _ _ h₁ h₂ h₃ ih₁ ih₂ ih₃ =>
    have hids₂ := @h₂.mem_ids
    have hids₃ := @h₃.mem_ids
    have hblock := h₂.before.block
    simp only [Point.skip_block, Point.branch_block] at hblock
    refine h₁.joined_append (ih₁ hp) ?_ ⟨nofun, by simp, h₂.forward.append ⟨nofun, by simp,
      h₃.forward.append ⟨nofun, by simp, trivial⟩⟩⟩ (by simp; grind)
    rw [h₂.current, h₃.current]
    refine .choiceElse (ih₂ (by simp)) (ih₃ (by simp; omega)) h₂.forward h₃.forward ?_
    have := h₂.nodup_ids
    have := h₃.nodup_ids
    simp [List.nodup_append]
    grind
  | write _ _ h₁ h₂ h₃ ih₁ ih₂ ih₃ =>
    have hlt := h₁.current_lt hp
    have hblock₂ := h₂.before.block
    have hblock₃ := h₃.before.block
    have hids₂ := @h₂.mem_ids
    have hids₃ := @h₃.mem_ids
    refine h₁.joined_append (ih₁ hp) (h₂.joined_append (ih₂ hlt) (h₃.joined_append
      (ih₃ (h₂.current_lt hlt)) (writeCode_joined _ _ _ _) (writeCode_forward _ _ _ _) (by simp))
      (h₃.forward.append (writeCode_forward _ _ _ _)) ?_)
      (h₂.forward.append (h₃.forward.append (writeCode_forward _ _ _ _))) ?_
    · grind
    · grind

end Pieces

theorem parameterCode_forward (first : Nat) (xs : List String) : (parameterCode first xs).Forward := by
  induction xs generalizing first with
  | nil => trivial
  | cons x xs ih => exact ih (first + 1)

theorem parameterCode_joined (first : Nat) (xs : List String) (id : BlockId) :
    (parameterCode first xs).Joined id := by
  induction xs generalizing first with
  | nil => exact Code.joined_nil
  | cons x xs ih => exact .instr rfl (.instr rfl (ih (first + 1)))

theorem Compiled.wellShaped {abi : IR.Abi} {known : String → Nat → Prop} {site : Site} {f : IR.Function}
    (h : Compiled abi known site f) : f.WellShaped := by
  obtain ⟨root, code, σ, p, -, hem, hf⟩ := h.consists
  refine hf.wellShaped ((parameterCode_forward _ _).append hem.forward) (fun id hid => ?_) ?_
  · rw [IR.Code.ids_append, ids_parameterCode] at hid
    rw [IR.Code.edges_append, edges_parameterCode, last_parameterCode]
    exact hem.exists_edge hid
  · refine (parameterCode_joined _ _ _).append ?_ (by simp) (by simp)
    rw [last_parameterCode]
    exact hem.joined (by simp)

/-- In every function of a compiled module control goes forward to a single return, all blocks can be
reached, and every phi has one value for each predecessor of its block. -/
theorem compile_wellShaped {abi : IR.Abi} {name : String} {program : List Expr} {m : IR.Module}
    (h : compile abi name program = .ok m) {f : IR.Function} (hf : f ∈ m.functions) : f.WellShaped := by
  obtain ⟨site, -, hsite⟩ := (compiledProgram_of_compile h).exists_site hf
  exact hsite.wellShaped

/-- The program `(def sign (x) (if (< x 1) (if (< x 0) (sys_write 2 &x 8)) 1))`: a choice in an arm of a choice,
and a system call, whose result is chosen too, in an arm of that. -/
def choosingProgram : List Expr :=
  [.define ⟨"sign", ["x"], [.branch ⟨"<", [.name "x" default, .int 1 default], default⟩
    (.branch ⟨"<", [.name "x" default, .int 0 default], default⟩
      (.call ⟨"sys_write", [.int 2 default, .ref (.name "x" default) default, .int 8 default], default⟩ default)
      none default)
    (some (.int 1 default)) default], default⟩ default]

/-- The function has nine blocks, of which three start with a phi. -/
theorem compile_wellShaped_choosingProgram : ∃ m f, compile .linuxX64 "m" choosingProgram = .ok m ∧
    f ∈ m.functions ∧ f.blocks.length = 9 ∧ f.WellShaped := by
  have hok : (compile .linuxX64 "m" choosingProgram).toOption.map
      (fun m => m.functions.map (·.blocks.length)) = some [9] := by decide +kernel
  obtain ⟨m, hm, hlength⟩ := exists_of_map_toOption hok
  obtain ⟨f, hfunctions, hblocks⟩ := List.map_eq_singleton_iff.mp hlength
  have hf : f ∈ m.functions := by simp [hfunctions]
  exact ⟨m, f, hm, hf, hblocks, compile_wellShaped hm hf⟩

end SmallLisp
