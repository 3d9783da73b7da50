import SmallLisp.Proofs.Emission

/-! # The shape of emitted code

Code takes its fresh numbers from an interval: the registers it defines, apart from those it was given,
the identities of its blocks and the numbers in their labels lie between the point before it and the
point after it. None of them is taken twice.
-/
namespace SmallLisp
open IR (Reg BlockId Operand Instr Item Code)

namespace Point
variable (p : Point) (n : Nat) (id : BlockId)

@[simp, grind =] theorem fresh_index : (p.fresh n).index = p.reg + n := rfl
@[simp, grind =] theorem newBlock_index : (p.newBlock n).index = p.block + n := rfl
@[simp, grind =] theorem skip_reg : (p.skip n).reg = p.reg + n := rfl
@[simp, grind =] theorem skip_label : (p.skip n).label = p.label := rfl
@[simp, grind =] theorem skip_block : (p.skip n).block = p.block := rfl
@[simp, grind =] theorem skip_current : (p.skip n).current = p.current := rfl
@[simp, grind =] theorem branch_reg : (p.branch n).reg = p.reg := rfl
@[simp, grind =] theorem branch_label : (p.branch n).label = p.label + 1 := rfl
@[simp, grind =] theorem branch_block : (p.branch n).block = p.block + n := rfl
@[simp, grind =] theorem branch_current : (p.branch n).current = p.newBlock 0 := rfl
@[simp, grind =] theorem goto_reg : (p.goto id).reg = p.reg := rfl
@[simp, grind =] theorem goto_label : (p.goto id).label = p.label := rfl
@[simp, grind =] theorem goto_block : (p.goto id).block = p.block := rfl
@[simp, grind =] theorem goto_current : (p.goto id).current = id := rfl

@[simp, grind =] theorem fresh_inj {m n : Nat} : p.fresh m = p.fresh n ↔ m = n := by
  simp [fresh]

@[simp, grind =] theorem newBlock_inj {m n : Nat} : p.newBlock m = p.newBlock n ↔ m = n := by
  simp [newBlock]

@[grind]
structure Before (p q : Point) : Prop where
  reg : p.reg ≤ q.reg
  label : p.label ≤ q.label
  block : p.block ≤ q.block

end Point

namespace Piece

def targets : Piece → List Reg
  | expr _ r | tree _ r | test _ _ _ r | body _ r | spill _ r => [r]
  | operands _ _ => []

def results : Piece → List Reg
  | expr _ r | tree _ r | test _ _ _ r | body _ r | spill _ r => [r]
  | operands _ rs => rs

end Piece

attribute [simp, grind =] Piece.targets Piece.results Instr.dst?

section Codes
variable (abi : IR.Abi) (v : Int64) (fd buffer length r slot : Reg) (p : Point)

@[simp, grind =] theorem ids_constantCode : (constantCode v r).ids = [] := rfl
@[simp, grind =] theorem dsts_constantCode : (constantCode v r).dsts = [r] := rfl
@[simp, grind =] theorem labels_constantCode : (constantCode v r).labels = [] := rfl
@[simp, grind =] theorem ids_spillCode : (spillCode r slot).ids = [] := rfl
@[simp, grind =] theorem dsts_spillCode : (spillCode r slot).dsts = [slot] := rfl
@[simp, grind =] theorem labels_spillCode : (spillCode r slot).labels = [] := rfl
@[simp, grind =] theorem ids_writeCode :
    (writeCode abi fd buffer length r p).ids = [p.newBlock 0, p.newBlock 1, p.newBlock 2] := rfl
@[simp, grind =] theorem dsts_writeCode :
    (writeCode abi fd buffer length r p).dsts = [p.fresh 0, p.fresh 1, p.fresh 2, r] := rfl

@[simp, grind =] theorem labels_writeCode : (writeCode abi fd buffer length r p).labels =
    ["sys.ok." ++ toString p.label, "sys.fail." ++ toString p.label, "sys.end." ++ toString p.label] := rfl

end Codes

section Shape
variable {abi : IR.Abi} {known : String → Nat → Prop} {piece : Piece} {σ σ' : Scope Storage}
  {p p' : Point} {code : Code}

@[grind →]
theorem Emits.before (h : Emits abi known piece σ p code σ' p') : p.Before p' := by
  induction h <;> constructor <;> grind

/-- The block that code ends in. -/
theorem Emits.current (h : Emits abi known piece σ p code σ' p') : p'.current = code.last p.current := by
  induction h <;> simp_all [constantCode, spillCode, writeCode]

/-- Every register that is defined was given or taken from the interval. -/
theorem Emits.mem_dsts (h : Emits abi known piece σ p code σ' p') {r : Reg} (hr : r ∈ code.dsts) :
    r ∈ piece.targets ∨ p.reg ≤ r.index ∧ r.index < p'.reg := by
  induction h generalizing r <;> grind

/-- The registers that have the results are defined. -/
theorem Emits.results_subset (h : Emits abi known piece σ p code σ' p') {r : Reg}
    (hr : r ∈ piece.results) : r ∈ code.dsts := by
  induction h generalizing r <;> grind

/-- The identities of blocks are taken from the interval. -/
@[grind →]
theorem Emits.mem_ids (h : Emits abi known piece σ p code σ' p') {id : BlockId} (hid : id ∈ code.ids) :
    p.block ≤ id.index ∧ id.index < p'.block := by
  induction h generalizing id <;> grind

/-- The block after code is one that was made. -/
theorem Emits.current_lt (h : Emits abi known piece σ p code σ' p') (hp : p.current.index < p.block) :
    p'.current.index < p'.block := by
  have hb := h.before.block
  rw [h.current]
  rcases code.last_mem p.current with he | hm
  · rw [he]
    omega
  · exact (h.mem_ids hm).2

/-- The block after code is the one before it or a new one. -/
theorem Emits.current_eq_or (h : Emits abi known piece σ p code σ' p') :
    p'.current = p.current ∨ p.block ≤ p'.current.index := by
  rw [h.current]
  rcases code.last_mem p.current with he | hm
  · exact .inl he
  · exact .inr (h.mem_ids hm).1

theorem Emits.nodup_ids (h : Emits abi known piece σ p code σ' p') : code.ids.Nodup := by
  induction h with
  | int | name | define | noOperands => simp
  | arith _ _ _ ih | compare _ _ _ ih | user _ _ _ _ ih | spill _ ih | leaf _ ih | result _ ih =>
    simpa using ih
  | node h₁ h₂ ih₁ ih₂ | test h₁ h₂ ih₁ ih₂ | operand h₁ h₂ ih₁ ih₂
  | more _ h₁ h₂ ih₁ ih₂ | branch _ _ h₁ h₂ ih₁ ih₂ =>
    simp [List.nodup_append, ih₁, ih₂]
    grind
  | branchElse _ _ h₁ h₂ h₃ ih₁ ih₂ ih₃ | write _ _ h₁ h₂ h₃ ih₁ ih₂ ih₃ =>
    simp [List.nodup_append, ih₁, ih₂, ih₃]
    grind

/-- There is one result for each operand. -/
theorem Emits.length_operands {es : List Expr} {rs : List Reg}
    (h : Emits abi known (.operands es rs) σ p code σ' p') : rs.length = es.length := by
  generalize hpiece : Piece.operands es rs = piece at h
  induction h generalizing es rs with
  | noOperands =>
    cases hpiece
    rfl
  | operand _ _ _ ih =>
    cases hpiece
    exact congrArg (· + 1) (ih rfl)
  | _ => cases hpiece

end Shape

/-! ## Labels -/

def labelStems : List String := ["if.then.", "if.else.", "if.end.", "sys.ok.", "sys.fail.", "sys.end."]

def IsLabel (n : Nat) (label : String) : Prop := ∃ stem ∈ labelStems, label = stem ++ toString n

/-- Numbers are known from their digits. -/
theorem toDigits_inj {m n : Nat} (h : Nat.toDigits 10 m = Nat.toDigits 10 n) : m = n := by
  have heq := congrArg (Nat.ofDigitChars 10 · 0) h
  simpa [Nat.ofDigitChars_ten_toDigits] using heq

/-- The number is what follows the last dot. -/
theorem label_inj {s t : String} {m n : Nat} (hs : s ∈ labelStems) (ht : t ∈ labelStems)
    (h : s ++ toString m = t ++ toString n) : s = t ∧ m = n := by
  have hdigits : ∀ s ∈ labelStems, ∀ n : Nat,
      (s ++ toString n).toList.reverse.takeWhile Char.isDigit = (Nat.toDigits 10 n).reverse := by
    intro s hs n
    have hdot : ∃ cs, s.toList.reverse = '.' :: cs := by
      simp only [labelStems, List.mem_cons, List.not_mem_nil, or_false] at hs
      rcases hs with rfl | rfl | rfl | rfl | rfl | rfl <;> exact ⟨_, rfl⟩
    obtain ⟨cs, hcs⟩ := hdot
    have hall : ∀ c ∈ (Nat.toDigits 10 n).reverse, c.isDigit := fun c hc =>
      Nat.isDigit_of_mem_toDigits (by decide) (by decide) (List.mem_reverse.mp hc)
    rw [String.toList_append, Nat.toString_eq_repr, Nat.toList_repr, List.reverse_append, hcs,
      List.takeWhile_append_of_pos hall]
    simp
  have hn : m = n := by
    have hrev := hdigits s hs m
    rw [h, hdigits t ht n] at hrev
    exact toDigits_inj (List.reverse_inj.mp hrev).symm
  subst hn
  refine ⟨?_, rfl⟩
  have hl := congrArg String.toList h
  rw [String.toList_append, String.toList_append] at hl
  exact String.toList_injective (List.append_cancel_right hl)

/-- Each stem makes labels, and different stems make different ones. -/
theorem isLabel_stem : ∀ stem ∈ labelStems, ∀ n : Nat, IsLabel n (stem ++ toString n) :=
  fun stem hs _ => ⟨stem, hs, rfl⟩

theorem label_ne (s t : String) (hs : s ∈ labelStems) (ht : t ∈ labelStems) (hne : s ≠ t) (n : Nat) :
    s ++ toString n ≠ t ++ toString n :=
  fun h => hne (label_inj hs ht h).1

@[grind →]
theorem IsLabel.unique {label : String} {m n : Nat} (hm : IsLabel m label) (hn : IsLabel n label) :
    m = n := by
  obtain ⟨s, hs, rfl⟩ := hm
  obtain ⟨t, ht, h⟩ := hn
  exact (label_inj hs ht h).2

theorem not_isLabel_entry (n : Nat) : ¬ IsLabel n "entry" := by
  rintro ⟨stem, hstem, h⟩
  have hl := congrArg String.toList h
  rw [String.toList_append] at hl
  simp only [labelStems, List.mem_cons, List.not_mem_nil, or_false] at hstem
  rcases hstem with rfl | rfl | rfl | rfl | rfl | rfl <;> simp at hl

section Labels
variable {abi : IR.Abi} {known : String → Nat → Prop} {piece : Piece} {σ σ' : Scope Storage}
  {p p' : Point} {code : Code}

/-- Labels have their numbers from the interval. -/
@[grind →]
theorem Emits.mem_labels (h : Emits abi known piece σ p code σ' p') {label : String}
    (hl : label ∈ code.labels) : ∃ n, IsLabel n label ∧ p.label ≤ n ∧ n < p'.label := by
  have hstem := isLabel_stem
  simp only [labelStems, List.forall_mem_cons] at hstem
  induction h generalizing label <;> grind

/-- Code that takes its numbers from different intervals has different labels. -/
theorem Emits.labels_disjoint {piece' : Piece} {τ τ' : Scope Storage} {q q' : Point} {d : Code}
    (h : Emits abi known piece σ p code σ' p') (h' : Emits abi known piece' τ q d τ' q')
    (hle : p'.label ≤ q.label) : ∀ l ∈ code.labels, ∀ l' ∈ d.labels, l ≠ l' := by
  intro l hl l' hl'
  obtain ⟨m, hm, _, hm₂⟩ := h.mem_labels hl
  obtain ⟨n, hn, hn₁, _⟩ := h'.mem_labels hl'
  rintro rfl
  have := hm.unique hn
  omega

/-- The labels of a construct do not occur in code whose interval does not have its number. -/
theorem Emits.label_not_mem (h : Emits abi known piece σ p code σ' p') (stem : String) {n : Nat}
    (hs : stem ∈ labelStems) (hn : n < p.label ∨ p'.label ≤ n) : stem ++ toString n ∉ code.labels := by
  intro hl
  obtain ⟨m, hm, hm₁, hm₂⟩ := h.mem_labels hl
  have := hm.unique (isLabel_stem stem hs n)
  omega

theorem Emits.nodup_labels (h : Emits abi known piece σ p code σ' p') : code.labels.Nodup := by
  have hstem := isLabel_stem
  simp only [labelStems, List.forall_mem_cons] at hstem
  induction h with
  | int | name | define | noOperands => simp
  | arith _ _ _ ih | compare _ _ _ ih | user _ _ _ _ ih | spill _ ih | leaf _ ih | result _ ih =>
    simpa using ih
  | node h₁ h₂ ih₁ ih₂ | test h₁ h₂ ih₁ ih₂ | operand h₁ h₂ ih₁ ih₂
  | more _ h₁ h₂ ih₁ ih₂ =>
    simp [List.nodup_append, ih₁, ih₂]
    grind
  | branch _ _ h₁ h₂ ih₁ ih₂ =>
    have hne := label_ne "if.then." "if.end." (by decide) (by decide) (by decide)
    simp [List.nodup_append, ih₁, ih₂]
    grind
  | branchElse _ _ h₁ h₂ h₃ ih₁ ih₂ ih₃ =>
    have hne₁ := label_ne "if.then." "if.else." (by decide) (by decide) (by decide)
    have hne₂ := label_ne "if.then." "if.end." (by decide) (by decide) (by decide)
    have hne₃ := label_ne "if.else." "if.end." (by decide) (by decide) (by decide)
    have hb₂ := h₂.before.label
    have hb₃ := h₃.before.label
    simp at hb₂ hb₃
    have hd₁₂ := h₁.labels_disjoint h₂ (by simp)
    have hd₁₃ := h₁.labels_disjoint h₃ (by simp; omega)
    have hd₂₃ := h₂.labels_disjoint h₃ (by simp)
    have hn₁ := fun stem hs => h₁.label_not_mem stem hs (.inr (Nat.le_refl _))
    have hn₂ := fun stem hs => h₂.label_not_mem stem hs (.inl (Nat.lt_succ_self _))
    have hn₃ := fun stem hs => h₃.label_not_mem stem hs (.inl hb₂)
    simp only [labelStems, List.forall_mem_cons] at hn₁ hn₂ hn₃
    simp [List.nodup_append, ih₁, ih₂, ih₃]
    grind
  | write _ _ h₁ h₂ h₃ ih₁ ih₂ ih₃ =>
    have hne₁ := label_ne "sys.ok." "sys.fail." (by decide) (by decide) (by decide)
    have hne₂ := label_ne "sys.ok." "sys.end." (by decide) (by decide) (by decide)
    have hne₃ := label_ne "sys.fail." "sys.end." (by decide) (by decide) (by decide)
    simp [List.nodup_append, ih₁, ih₂, ih₃]
    grind

end Labels

/-! ## Items -/

/-- An item as code has it: a call is of a known function with that number of parameters, inline assembly
enters the kernel, and a label is that of a construct. -/
def IR.Item.Emitted (abi : IR.Abi) (known : String → Nat → Prop) : Item → Prop
  | .instr (.call _ callee args) => known callee args.length
  | .instr (.asm _ template constraints _) => template = abi.template ∧ constraints = abi.constraints
  | .instr _ => True
  | .next _ _ label => ∃ n, IsLabel n label

section Items
variable {abi : IR.Abi} {known : String → Nat → Prop} {piece : Piece} {σ σ' : Scope Storage}
  {p p' : Point} {code : Code}

theorem emitted_next {stem : String} (hs : stem ∈ labelStems) (t : IR.Terminator) (id : BlockId) (n : Nat) :
    (Item.next t id (stem ++ toString n)).Emitted abi known :=
  ⟨n, isLabel_stem stem hs n⟩

theorem Emits.emitted (h : Emits abi known piece σ p code σ' p') : ∀ item ∈ code, item.Emitted abi known := by
  induction h with
  | int | name | define | noOperands => simp [constantCode, IR.Item.Emitted]
  | arith _ _ _ ih | leaf _ ih | result _ ih => exact ih
  | user _ _ hknown h ih =>
    refine List.forall_mem_append.mpr ⟨ih, ?_⟩
    simpa [IR.Item.Emitted, h.length_operands] using hknown
  | compare _ _ _ ih | spill _ ih =>
    refine List.forall_mem_append.mpr ⟨ih, ?_⟩
    simp [spillCode, IR.Item.Emitted]
  | operand _ _ ih₁ ih₂ | more _ _ _ ih₁ ih₂ => exact List.forall_mem_append.mpr ⟨ih₁, ih₂⟩
  | node _ _ ih₁ ih₂ | test _ _ ih₁ ih₂ =>
    simp only [List.forall_mem_append, List.forall_mem_singleton]
    exact ⟨ih₁, ih₂, trivial⟩
  | branch _ _ _ _ ih₁ ih₂ =>
    simp only [List.forall_mem_append, List.forall_mem_cons]
    exact ⟨ih₁, emitted_next (by decide) _ _ _, ih₂, emitted_next (by decide) _ _ _, trivial,
      List.forall_mem_nil _⟩
  | branchElse _ _ _ _ _ ih₁ ih₂ ih₃ =>
    simp only [List.forall_mem_append, List.forall_mem_cons]
    exact ⟨ih₁, emitted_next (by decide) _ _ _, ih₂, emitted_next (by decide) _ _ _, ih₃,
      emitted_next (by decide) _ _ _, trivial, List.forall_mem_nil _⟩
  | write _ _ _ _ _ ih₁ ih₂ ih₃ =>
    simp only [List.forall_mem_append, writeCode, List.forall_mem_cons]
    exact ⟨ih₁, ih₂, ih₃, trivial, ⟨rfl, rfl⟩, trivial, emitted_next (by decide) _ _ _,
      emitted_next (by decide) _ _ _, emitted_next (by decide) _ _ _, trivial, List.forall_mem_nil _⟩

theorem parameterCode_emitted (first : Nat) (xs : List String) :
    ∀ item ∈ parameterCode first xs, item.Emitted abi known := by
  induction xs generalizing first with
  | nil => exact List.forall_mem_nil _
  | cons x xs ih =>
    simp only [parameterCode, List.forall_mem_cons]
    exact ⟨trivial, trivial, ih (first + 1)⟩

/-- The blocks of a function made from a definition are made of such items. -/
theorem Compiled.exists_code {site : Site} {f : IR.Function} (h : Compiled abi known site f) : ∃ final code,
    f.blocks = Code.blocks final ⟨0⟩ "entry" code ∧ ∀ item ∈ code, item.Emitted abi known := by
  obtain ⟨root, code, σ, p, -, hcode, hblocks⟩ := h.body
  exact ⟨_, _, hblocks, List.forall_mem_append.mpr ⟨parameterCode_emitted 1 _, hcode.emitted⟩⟩

theorem Compiled.instr_emitted {site : Site} {f : IR.Function} (h : Compiled abi known site f) {b : IR.Block}
    (hb : b ∈ f.blocks) {i : Instr} (hi : i ∈ b.instrs) : (Item.instr i).Emitted abi known := by
  obtain ⟨final, code, hblocks, hcode⟩ := h.exists_code
  rw [hblocks] at hb
  exact hcode _ (Code.mem_of_mem_blocks final hb hi)

/-- Every block but the first has the label of a construct. -/
theorem Compiled.label_eq {site : Site} {f : IR.Function} (h : Compiled abi known site f) {b : IR.Block}
    (hb : b ∈ f.blocks) : b.label = "entry" ∨ ∃ n, IsLabel n b.label := by
  obtain ⟨final, code, hblocks, hcode⟩ := h.exists_code
  rw [hblocks] at hb
  rcases List.mem_cons.mp hb with rfl | hb
  · exact .inl rfl
  · right
    have hlabel : b.label ∈ code.labels := by
      rw [← Code.map_label_later final]
      exact List.mem_map_of_mem hb
    obtain ⟨item, hitem, hlabel⟩ := List.mem_filterMap.mp hlabel
    cases item with
    | instr i => cases hlabel
    | next t id label =>
      cases hlabel
      exact hcode _ hitem

end Items
end SmallLisp
