import SmallLisp.Proofs.CodeChecks
import SmallLisp.Proofs.EmissionShape
import Mathlib.Data.List.Nodup

/-! # Emitted code passes the checks

Code only branches to its own blocks, each of its phis stands at the start of a block and names the ends
of the branches to it, and what it reads was defined before, either in the code itself or for a slot of
the scope. By induction this holds wherever the registers defined before are not among those that the
code is yet to define.
-/
namespace SmallLisp
open IR (Reg BlockId Operand Instr Item Code)

section Codes
variable (abi : IR.Abi) (v : Int64) (fd buffer length r slot : Reg) (p : Point) (id : BlockId)

@[simp, grind =] theorem edges_constantCode : (constantCode v r).edges id = [] := rfl
@[simp, grind =] theorem edges_spillCode : (spillCode r slot).edges id = [] := rfl
@[simp, grind =] theorem edges_writeCode : (writeCode abi fd buffer length r p).edges id =
    [(id, p.newBlock 0), (id, p.newBlock 1), (p.newBlock 0, p.newBlock 2),
      (p.newBlock 1, p.newBlock 2)] := rfl

end Codes

section Checks
variable {abi : IR.Abi} {known : String → Nat → Prop} {piece : Piece} {σ σ' : Scope Storage}
  {p p' : Point} {code : Code}

attribute [simp, grind =] IR.Terminator.successors IR.Terminator.uses

/-- Code branches to blocks of its own. -/
theorem Emits.mem_ids_of_edge (h : Emits abi known piece σ p code σ' p') {e : BlockId × BlockId}
    {id : BlockId} (he : e ∈ code.edges id) : e.2 ∈ code.ids := by
  induction h generalizing e id <;> grind

/-- A scope only gains functions. -/
theorem Emits.slot_of_slot (h : Emits abi known piece σ p code σ' p') {x : String} {r : Reg}
    (hx : σ'.lookup? x = some (.slot r)) : σ.lookup? x = some (.slot r) := by
  induction h with
  | define d s r σ p =>
    by_cases hn : x = d.name
    · rw [hn, Scope.lookup?_define_self] at hx
      cases hx
    · rwa [Scope.lookup?_define_ne _ _ hn] at hx
  | int | name | noOperands => exact hx
  | arith _ _ _ ih | compare _ _ _ ih | user _ _ _ _ ih | spill _ ih | leaf _ ih | result _ ih => exact ih hx
  | node _ _ ih₁ ih₂ | test _ _ ih₁ ih₂ | operand _ _ ih₁ ih₂ | more _ _ _ ih₁ ih₂
  | branch _ _ _ _ ih₁ ih₂ => exact ih₁ (ih₂ hx)
  | branchElse _ _ _ _ _ ih₁ ih₂ ih₃ | write _ _ _ _ _ ih₁ ih₂ ih₃ => exact ih₁ (ih₂ (ih₃ hx))

/-- What holds before code that is yet to define the registers `pending`, among others that are still
fresh: the registers of slots are defined, and no pending register is. -/
structure Given (pending : List Reg) (σ : Scope Storage) (p : Point) (defined : List Reg) : Prop where
  slots : ∀ x r, σ.lookup? x = some (.slot r) → r ∈ defined
  below : ∀ r ∈ defined ++ pending, r.index < p.reg
  new : ∀ r ∈ pending, r ∉ defined
  distinct : pending.Nodup

namespace Given
variable {pending rest defined : List Reg}

/-- Fresh registers become pending. -/
theorem skip (hg : Given pending σ p defined) {q : Point} (n : Nat) (hq : q.reg = p.reg + n) :
    Given ((List.range n).map p.fresh ++ pending) σ q defined where
  slots := hg.slots
  below r hr := by
    have hb := hg.below r
    simp only [List.mem_append, List.mem_map, List.mem_range] at hr hb
    rcases hr with hr | ⟨i, hi, rfl⟩ | hr
    · have := hb (.inl hr)
      omega
    · rw [Point.fresh_index]
      omega
    · have := hb (.inr hr)
      omega
  new r hr hd := by
    rcases List.mem_append.mp hr with hr | hr
    · obtain ⟨i, hi, rfl⟩ := List.mem_map.mp hr
      have := hg.below _ (List.mem_append_left _ hd)
      rw [Point.fresh_index] at this
      omega
    · exact hg.new r hr hd
  distinct := by
    refine List.nodup_append.mpr ⟨?_, hg.distinct, ?_⟩
    · exact List.Nodup.map_on (fun i _ j _ h => by simpa using h) List.nodup_range
    · rintro r hr r' hr' rfl
      obtain ⟨i, hi, rfl⟩ := List.mem_map.mp hr
      have := hg.below _ (List.mem_append_right _ hr')
      rw [Point.fresh_index] at this
      omega

/-- The code of a piece defines its targets and no other pending register. -/
theorem after (hg : Given (piece.targets ++ rest) σ p defined) (h : Emits abi known piece σ p code σ' p') :
    Given rest σ' p' (code.dsts.reverse ++ defined) where
  slots x r hx := List.mem_append_right _ (hg.slots x r (h.slot_of_slot hx))
  below r hr := by
    have hb := hg.below r
    have hle := h.before.reg
    have hd := fun hr => h.mem_dsts (r := r) hr
    simp only [List.mem_append, List.mem_reverse] at hr hb
    rcases hr with (hr | hr) | hr
    · rcases hd hr with ht | ⟨_, hlt⟩
      · have := hb (.inr (.inl ht))
        omega
      · exact hlt
    · have := hb (.inl hr)
      omega
    · have := hb (.inr (.inr hr))
      omega
  new r hr hm := by
    rcases List.mem_append.mp hm with hm | hm
    · rcases h.mem_dsts (List.mem_reverse.mp hm) with ht | ⟨hle, _⟩
      · exact (List.nodup_append.mp hg.distinct).2.2 r ht r hr rfl
      · have := hg.below r (by simp [hr])
        omega
    · exact hg.new r (List.mem_append_right _ hr) hm
  distinct := (List.nodup_append.mp hg.distinct).2.1

end Given

attribute [simp] Instr.operands Instr.uses Instr.place? Operand.reg?

/-- An instruction that is no phi and reads no arguments is checked by its registers alone. -/
theorem instr_checked {f : IR.Function} {id : BlockId} {late : Bool} {defined : List Reg} {i : Instr}
    (hphi : i.isPhi = false) (hargs : ∀ param, .arg param ∉ i.operands)
    (huses : ∀ r ∈ i.uses, r ∈ defined) (hdst : ∀ r, i.dst? = some r → r ∉ defined) :
    i.Checked f id late defined where
  phi dst incoming hi := by
    rw [hi] at hphi
    cases hphi
  arguments param hp := absurd hp (hargs param)
  uses := huses
  result := hdst

/-- A phi at the start of a block, of values in registers and constants. -/
theorem instr_checked_phi {f : IR.Function} {id : BlockId} {late : Bool} {defined : List Reg} {dst : Reg}
    {incoming : List (Operand × BlockId)} (hlate : late = false)
    (hedges : ∀ source ∈ incoming.map (·.2), f.hasEdge source id = true)
    (huses : ∀ v ∈ incoming.map (·.1), v = .const 0 ∨ ∃ r ∈ defined, v = .reg r) (hdst : dst ∉ defined) :
    (Instr.phi dst incoming).Checked f id late defined where
  phi _ _ h := by
    cases h
    exact ⟨hlate, hedges⟩
  arguments param hp := by
    rcases huses _ hp with h | ⟨_, _, h⟩ <;> cases h
  uses r hr := by
    have hr : r ∈ (incoming.map (·.1)).filterMap Operand.reg? := by simpa using hr
    obtain ⟨v, hv, he⟩ := List.mem_filterMap.mp hr
    rcases huses v hv with rfl | ⟨r', hr', rfl⟩
    · cases he
    · cases he
      exact hr'
  result r h := by
    cases h
    exact hdst

/-- Code whose first part is that of a piece. -/
theorem checked_append {f : IR.Function} {pending defined : List Reg} {rest : Code} {late : Bool}
    {id : BlockId} (h : Emits abi known piece σ p code σ' p') (hid : id = p.current)
    (hg : Given (piece.targets ++ pending) σ p defined)
    (hc : ∀ {pending defined}, Given (piece.targets ++ pending) σ p defined →
      (∀ e ∈ code.edges p.current, f.hasEdge e.1 e.2 = true) →
      ∀ late, code.Checked f p.current late defined)
    (hf : ∀ e ∈ Code.edges id (code ++ rest), f.hasEdge e.1 e.2 = true)
    (hrest : Given pending σ' p' (code.dsts.reverse ++ defined) →
      (∀ e ∈ rest.edges p'.current, f.hasEdge e.1 e.2 = true) →
      (∀ r ∈ piece.results, r ∈ code.dsts.reverse ++ defined) →
      ∀ late, rest.Checked f p'.current late (code.dsts.reverse ++ defined)) :
    Code.Checked f id late defined (code ++ rest) := by
  subst hid
  rw [IR.Code.edges_append, List.forall_mem_append, ← h.current] at hf
  refine (hc hg hf.1 late).append ?_
  rw [← h.current]
  exact hrest (hg.after h) hf.2 fun r hr =>
    List.mem_append_left _ (List.mem_reverse.mpr (h.results_subset hr))

/-- Entering the kernel with registers that are defined. -/
theorem writeCode_checked {f : IR.Function} {pending defined : List Reg} {late : Bool}
    {fd buffer length r : Reg} (hg : Given (r :: pending) σ p defined) (hfd : fd ∈ defined)
    (hbuffer : buffer ∈ defined) (hlength : length ∈ defined)
    (hf : ∀ e ∈ (writeCode abi fd buffer length r p).edges p.current, f.hasEdge e.1 e.2 = true) :
    (writeCode abi fd buffer length r p).Checked f p.current late defined := by
  have hg := hg.skip 3 (q := p.skip 3) rfl
  simp only [edges_writeCode, List.forall_mem_cons] at hf
  have h₀ := hg.new (p.fresh 0) (by simp)
  have h₁ := hg.new (p.fresh 1) (by simp)
  have h₂ := hg.new (p.fresh 2) (by simp)
  have hr := hg.new r (by simp)
  have hd := hg.distinct
  simp only [List.range, List.range.loop, List.map_cons, List.map_nil, List.cons_append, List.nil_append,
    List.nodup_cons, List.mem_cons, not_or] at hd
  refine ⟨?_, ?_, ?_, ?_, ?_, ?_, ?_, trivial⟩
  · exact instr_checked rfl (by simp) (by simpa using hbuffer) (by simpa using h₀)
  · refine instr_checked rfl (by simp) ?_ (by simpa using h₁)
    have huses : ∀ x ∈ [fd, p.fresh 0, length], x ∈ p.fresh 0 :: defined := by simp [hfd, hlength]
    exact huses
  · exact instr_checked rfl (by simp) (by simp [hlength]) (by simpa using h₂)
  · simp
  · simp
  · simp
  · refine instr_checked_phi rfl ?_ ?_ ?_
    · simpa using And.intro hf.2.2.1 hf.2.2.2.1
    · simp
    · have hne : p.fresh 0 ≠ r ∧ p.fresh 1 ≠ r ∧ p.fresh 2 ≠ r := ⟨hd.1.2.2.1, hd.2.1.2.1, hd.2.2.1.1⟩
      simpa [hr] using ⟨hne.2.2.symm, hne.2.1.symm, hne.1.symm⟩

/-- Emitted code passes the checks. -/
theorem Emits.checked (h : Emits abi known piece σ p code σ' p') {f : IR.Function}
    {pending defined : List Reg} (hg : Given (piece.targets ++ pending) σ p defined)
    (hf : ∀ e ∈ code.edges p.current, f.hasEdge e.1 e.2 = true) (late : Bool) :
    code.Checked f p.current late defined := by
  induction h generalizing pending defined late with
  | int v s r σ p =>
    exact ⟨instr_checked rfl (by simp) (by simp) (by simpa using hg.new r (by simp)), trivial⟩
  | define d s r σ p =>
    exact ⟨instr_checked rfl (by simp) (by simp) (by simpa using hg.new r (by simp)), trivial⟩
  | @name x σ slot hx s r p =>
    have hslot := hg.slots x slot hx
    exact ⟨instr_checked rfl (by simp) (by simpa using hslot) (by simpa using hg.new r (by simp)), trivial⟩
  | arith _ _ _ ih => exact ih hg hf late
  | @compare c s r op x y σ σ' p p' code _ _ h ih =>
    have hg := hg.skip 1 (q := p.skip 1) rfl
    refine checked_append h rfl hg ih hf fun hg _ hflag _ => ?_
    refine ⟨instr_checked rfl (by simp) ?_ ?_, trivial⟩
    · simpa using hflag
    · simpa using hg.new r (by simp)
  | @write c s sr r fd e length σ σ₁ σ₂ σ₃ p p₁ p₂ p₃ c₁ c₂ c₃ hop hargs
      h₁ h₂ h₃ ih₁ ih₂ ih₃ =>
    have hg := hg.skip 3 (q := p.skip 3) rfl
    refine checked_append h₁ rfl hg ih₁ hf fun hg hf hfd _ => ?_
    refine checked_append h₂ rfl hg ih₂ hf fun hg hf hbuffer _ => ?_
    refine checked_append h₃ rfl hg ih₃ hf fun hg hf hlength _ => ?_
    have hfd := List.mem_append_right c₃.dsts.reverse
      (List.mem_append_right c₂.dsts.reverse (hfd (p.fresh 0) (by simp)))
    have hbuffer := List.mem_append_right c₃.dsts.reverse (hbuffer (p.fresh 1) (by simp))
    have hlength := hlength (p.fresh 2) (by simp)
    exact writeCode_checked hg hfd hbuffer hlength hf
  | @user c s r rs σ σ' p p' code hop hσ hk h ih =>
    refine checked_append h rfl hg ih hf fun hg _ hrs _ => ?_
    refine ⟨instr_checked rfl (by simp) ?_ ?_, trivial⟩
    · simpa [List.filterMap_map] using hrs
    · simpa using hg.new r (by simp)
  | @branch t s r op x y yes σ σ₁ σ₂ p p₁ p₂ c₁ c₂ hop hargs h₁ h₂ ih₁ ih₂ =>
    have hg := hg.skip 1 (q := p.skip 1) rfl
    refine checked_append h₁ rfl hg ih₁ hf fun hg hf hflag _ => ?_
    refine ⟨by simpa using hflag, ?_⟩
    rw [IR.Code.edges_next, List.forall_mem_append] at hf
    have hg := hg.skip 1 (q := (p₁.branch 2).skip 1) rfl
    refine checked_append h₂ rfl hg ih₂ hf.2 fun hg hf₂ hyes _ => ?_
    refine ⟨by simp, instr_checked_phi ?_ ?_ ?_ ?_, trivial⟩
    · rfl
    · have hend : f.hasEdge p₁.current (p₁.newBlock 1) = true := hf.1 (p₁.current, p₁.newBlock 1) (by simp)
      have hyes : f.hasEdge p₂.current (p₁.newBlock 1) = true := hf₂ (p₂.current, p₁.newBlock 1) (by simp)
      simpa using And.intro hyes hend
    · simpa using hyes
    · simpa using hg.new r (by simp)
  | @branchElse t s r op x y yes no σ σ₁ σ₂ σ₃ p p₁ p₂ p₃ c₁ c₂ c₃ hop hargs
      h₁ h₂ h₃ ih₁ ih₂ ih₃ =>
    have hg := hg.skip 1 (q := p.skip 1) rfl
    refine checked_append h₁ rfl hg ih₁ hf fun hg hf hflag _ => ?_
    refine ⟨by simpa using hflag, ?_⟩
    rw [IR.Code.edges_next, List.forall_mem_append] at hf
    have hg := hg.skip 1 (q := (p₁.branch 3).skip 1) rfl
    refine checked_append h₂ rfl hg ih₂ hf.2 fun hg hf hyes _ => ?_
    refine ⟨by simp, ?_⟩
    rw [IR.Code.edges_next, List.forall_mem_append] at hf
    have hg := hg.skip 1 (q := (p₂.goto (p₁.newBlock 1)).skip 1) rfl
    refine checked_append h₃ rfl hg ih₃ hf.2 fun hg hf₃ hno _ => ?_
    refine ⟨by simp, instr_checked_phi ?_ ?_ ?_ ?_, trivial⟩
    · rfl
    · have hyes : f.hasEdge p₂.current (p₁.newBlock 2) = true := hf.1 (p₂.current, p₁.newBlock 2) (by simp)
      have hno : f.hasEdge p₃.current (p₁.newBlock 2) = true := hf₃ (p₃.current, p₁.newBlock 2) (by simp)
      simpa using And.intro hyes hno
    · have hyes := List.mem_append_right c₃.dsts.reverse (hyes (p₁.fresh 0) (by simp))
      have hno := hno (p₂.fresh 0) (by simp)
      simpa using And.intro hyes hno
    · simpa using hg.new r (by simp)
  | @spill e slot σ σ' p p' code h ih =>
    have hg := hg.skip 1 (q := p.skip 1) rfl
    refine checked_append h rfl hg ih hf fun hg _ hvalue _ => ?_
    refine ⟨instr_checked rfl (by simp) (by simp) ?_, instr_checked rfl (by simp) ?_ (by simp), trivial⟩
    · simpa using hg.new slot (by simp)
    · simpa using List.mem_cons_of_mem slot (hvalue (p.fresh 0) (by simp))
  | leaf h ih => exact ih hg hf late
  | @node op left right r σ σ₁ σ₂ p p₁ p₂ c₁ c₂ h₁ h₂ ih₁ ih₂ =>
    have hg := hg.skip 2 (q := p.skip 2) rfl
    refine checked_append h₁ rfl hg ih₁ hf fun hg hf hlhs _ => ?_
    refine checked_append h₂ rfl hg ih₂ hf fun hg _ hrhs _ => ?_
    refine ⟨instr_checked rfl (by simp) ?_ ?_, trivial⟩
    · have hlhs := List.mem_append_right c₂.dsts.reverse (hlhs (p.fresh 0) (by simp))
      have hrhs := hrhs (p.fresh 1) (by simp)
      simpa using And.intro hlhs hrhs
    · simpa using hg.new r (by simp)
  | @test op x y flag σ σ₁ σ₂ p p₁ p₂ c₁ c₂ h₁ h₂ ih₁ ih₂ =>
    have hg := hg.skip 2 (q := p.skip 2) rfl
    refine checked_append h₁ rfl hg ih₁ hf fun hg hf hlhs _ => ?_
    refine checked_append h₂ rfl hg ih₂ hf fun hg _ hrhs _ => ?_
    refine ⟨instr_checked rfl (by simp) ?_ ?_, trivial⟩
    · have hlhs := List.mem_append_right c₂.dsts.reverse (hlhs (p.fresh 0) (by simp))
      have hrhs := hrhs (p.fresh 1) (by simp)
      simpa using And.intro hlhs hrhs
    · simpa using hg.new flag (by simp)
  | noOperands σ p => exact trivial
  | @operand e es rs σ σ₁ σ₂ p p₁ p₂ c₁ c₂ h₁ h₂ ih₁ ih₂ =>
    have hg := hg.skip 1 (q := p.skip 1) rfl
    exact checked_append h₁ rfl hg ih₁ hf fun hg hf _ late => ih₂ hg hf late
  | result h ih => exact ih hg hf late
  | @more e es r σ σ₁ σ₂ p p₁ p₂ c₁ c₂ hes h₁ h₂ ih₁ ih₂ =>
    have hg := hg.skip 1 (q := p.skip 1) rfl
    exact checked_append h₁ rfl hg ih₁ hf fun hg hf _ late => ih₂ hg hf late

end Checks
end SmallLisp
