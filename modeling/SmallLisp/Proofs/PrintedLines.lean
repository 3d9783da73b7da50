import SmallLisp.IR.Text
import SmallLisp.Proofs.EmissionShape
import SmallLisp.Proofs.NameReading

/-! # Lines of printed functions

No name breaks a line, for a name with a newline is printed in quotes and with an escape. Labels and the
texts of inline assembly are printed as they are, but those of compiled functions stay on one line. So the
text of a compiled function is cut at newlines into the lines it was made of.
-/
namespace SmallLisp.IR

def OneLine (s : String) : Prop := '\n' ∉ s.toList

instance (s : String) : Decidable (OneLine s) := inferInstanceAs (Decidable ('\n' ∉ s.toList))

/-- Lines are cut apart where they were ended. -/
theorem splitOn_unlines {lines : List String} (h : ∀ line ∈ lines, OneLine line) :
    (unlines lines).toList.splitOn '\n' = lines.map String.toList ++ [[]] := by
  have htext : (unlines lines).toList = ['\n'].intercalate (lines.map String.toList ++ [[]]) := by
    clear h
    induction lines with
    | nil => rfl
    | cons line lines ih =>
      rw [unlines, List.map_cons, String.join_cons, String.toList_append, String.toList_append,
        List.map_cons, List.cons_append, List.intercalate_cons_of_ne_nil (by simp), ← ih]
      rfl
  rw [htext, List.splitOn_intercalate '\n' ?_ (by simp)]
  intro cs hcs
  rcases List.mem_append.mp hcs with hcs | hcs
  · obtain ⟨line, hline, rfl⟩ := List.mem_map.mp hcs
    exact h line hline
  · rw [List.mem_singleton.mp hcs]
    exact List.not_mem_nil

theorem mem_of_mem_intercalate {α : Type} {sep : List α} {ls : List (List α)} {x : α}
    (h : x ∈ sep.intercalate ls) : x ∈ sep ∨ ∃ l ∈ ls, x ∈ l := by
  induction ls with
  | nil => cases h
  | cons l ls ih =>
    by_cases hls : ls = []
    · subst hls
      exact .inr ⟨l, List.mem_cons_self, by simpa using h⟩
    · rw [List.intercalate_cons_of_ne_nil hls, List.mem_append, List.mem_append] at h
      rcases h with (h | h) | h
      · exact .inr ⟨l, List.mem_cons_self, h⟩
      · exact .inl h
      · rcases ih h with h | ⟨l', hl', h⟩
        · exact .inl h
        · exact .inr ⟨l', List.mem_cons_of_mem _ hl', h⟩

section OneLine

@[simp] theorem oneLine_append {s t : String} : OneLine (s ++ t) ↔ OneLine s ∧ OneLine t := by
  simp [OneLine, String.toList_append]

theorem oneLine_intercalate {sep : String} {items : List String} (hsep : OneLine sep)
    (h : ∀ item ∈ items, OneLine item) : OneLine (sep.intercalate items) := by
  intro hmem
  rw [String.toList_intercalate] at hmem
  rcases mem_of_mem_intercalate hmem with hmem | ⟨l, hl, hmem⟩
  · exact hsep hmem
  · obtain ⟨item, hitem, rfl⟩ := List.mem_map.mp hl
    exact h item hitem hmem

@[simp] theorem oneLine_nat (n : Nat) : OneLine (toString n) := by
  intro hmem
  rw [Nat.toString_eq_repr, Nat.toList_repr] at hmem
  exact absurd (Nat.isDigit_of_mem_toDigits (by decide) (by decide) hmem) (by decide)

@[simp] theorem oneLine_int64 (v : Int64) : OneLine (toString v) := by
  change OneLine (toString v.toInt)
  cases v.toInt with
  | ofNat n => exact oneLine_nat n
  | negSucc n => exact oneLine_append.mpr ⟨by decide, oneLine_nat (n + 1)⟩

@[simp] theorem oneLine_name (sigil : Char) (name : String) (h : sigil ≠ '\n') : OneLine (Name.text sigil name) := by
  rw [OneLine, Name.toList_text, List.mem_cons, not_or]
  exact ⟨h.symm, Name.not_mem_printed (by decide) (by decide) name⟩

@[simp] theorem oneLine_reg (r : Reg) : OneLine r.text := oneLine_append.mpr ⟨by decide, oneLine_nat _⟩

@[simp] theorem oneLine_operand (o : Operand) : OneLine o.text := by
  cases o with
  | reg r => exact oneLine_reg r
  | const v => exact oneLine_int64 v
  | arg param => exact oneLine_name '%' _ (by decide)

@[simp] theorem oneLine_labelRef (f : Function) (id : BlockId) : OneLine (f.labelRef id) := by
  rw [Function.labelRef]
  split
  · exact oneLine_name '%' _ (by decide)
  · exact oneLine_append.mpr ⟨by decide, oneLine_nat _⟩

theorem oneLine_tuple {items : List String} (h : ∀ item ∈ items, OneLine item) : OneLine (tuple items) := by
  simp only [tuple, oneLine_append]
  exact ⟨⟨by decide, oneLine_intercalate (by decide) h⟩, by decide⟩

@[simp] theorem oneLine_args (args : List Operand) : OneLine (argsText args) := by
  refine oneLine_tuple fun item hitem => ?_
  obtain ⟨o, -, rfl⟩ := List.mem_map.mp hitem
  exact oneLine_append.mpr ⟨by decide, oneLine_operand o⟩

end OneLine

structure Function.Printable (f : Function) : Prop where
  labels : ∀ b ∈ f.blocks, Name.isBare b.label = true
  asm : ∀ b ∈ f.blocks, ∀ dst template constraints args, .asm dst template constraints args ∈ b.instrs →
    OneLine template ∧ OneLine constraints

section Lines
variable {f : Function}

theorem oneLine_instr {i : Instr} (h : ∀ dst template constraints args, i = .asm dst template constraints args →
    OneLine template ∧ OneLine constraints) : OneLine (i.text f) := by
  cases i with
  | binary dst op lhs rhs => cases op <;> simp +decide [Instr.text, BinOp.text]
  | icmp dst pred lhs rhs => cases pred <;> simp +decide [Instr.text, Pred.text]
  | call dst callee args => simp +decide [Instr.text]
  | asm dst template constraints args => simp +decide [Instr.text, h _ _ _ _ rfl]
  | phi dst incoming =>
    simp only [Instr.text, oneLine_append]
    refine ⟨⟨oneLine_reg dst, by decide⟩, oneLine_intercalate (by decide) fun item hitem => ?_⟩
    obtain ⟨entry, -, rfl⟩ := List.mem_map.mp hitem
    simp +decide
  | zext _ _ | alloca _ | store _ _ | load _ _ | ptrToInt _ _ => simp +decide [Instr.text]

theorem oneLine_terminator (t : Terminator) : OneLine (t.text f) := by
  cases t <;> simp +decide [Terminator.text]

theorem oneLine_header : OneLine f.header := by
  simp only [Function.header, oneLine_append]
  refine ⟨⟨⟨by decide, oneLine_name '@' _ (by decide)⟩, oneLine_tuple fun item hitem => ?_⟩, by decide⟩
  obtain ⟨param, -, rfl⟩ := List.mem_map.mp hitem
  exact oneLine_append.mpr ⟨by decide, oneLine_name '%' _ (by decide)⟩

theorem oneLine_of_isBare {name : String} (h : Name.isBare name = true) : OneLine name := by
  have hprinted : '\n' ∉ Name.printed name := Name.not_mem_printed (by decide) (by decide) name
  rwa [Name.printed, if_pos h] at hprinted

namespace Function.Printable

theorem oneLine_block (h : f.Printable) {b : Block} (hb : b ∈ f.blocks) : ∀ line ∈ b.lines f, OneLine line := by
  intro line hline
  simp only [Block.lines, List.cons_append, List.mem_cons, List.mem_append, List.mem_map, List.not_mem_nil,
    or_false] at hline
  rcases hline with rfl | ⟨i, hi, rfl⟩ | rfl
  · exact oneLine_append.mpr ⟨oneLine_of_isBare (h.labels b hb), by decide⟩
  · refine oneLine_append.mpr ⟨by decide, oneLine_instr fun dst template constraints args hasm => ?_⟩
    subst hasm
    exact h.asm b hb _ _ _ _ hi
  · exact oneLine_append.mpr ⟨by decide, oneLine_terminator _⟩

theorem oneLine (h : f.Printable) : ∀ line ∈ f.lines, OneLine line := by
  intro line hline
  simp only [Function.lines, List.cons_append, List.mem_cons, List.mem_append, List.not_mem_nil, or_false] at hline
  rcases hline with rfl | hline | rfl
  · exact oneLine_header
  · rcases mem_of_mem_intercalate hline with hline | ⟨lines, hlines, hline⟩
    · rw [List.mem_singleton.mp hline]
      decide
    · obtain ⟨b, hb, rfl⟩ := List.mem_map.mp hlines
      exact h.oneLine_block hb line hline
  · decide

/-- The text of a printable function has the lines that it was made of. -/
theorem splitOn_text (h : f.Printable) : f.text.toList.splitOn '\n' = f.lines.map String.toList ++ [[]] :=
  splitOn_unlines h.oneLine

end Function.Printable
end Lines
end SmallLisp.IR

namespace SmallLisp

/-- The texts of the call conventions are on one line. -/
theorem oneLine_abi (abi : IR.Abi) : IR.OneLine abi.template ∧ IR.OneLine abi.constraints := by
  cases abi <;> decide

theorem isBare_of_isLabel {n : Nat} {label : String} (h : IsLabel n label) : IR.Name.isBare label = true := by
  obtain ⟨stem, hstem, rfl⟩ := h
  have hstems : ∀ stem ∈ labelStems, IR.Name.isBare stem = true := by decide
  exact IR.Name.isBare_append_toString (hstems stem hstem) n

/-- Functions made from definitions are printable. -/
theorem Compiled.printable {abi : IR.Abi} {known : String → Nat → Prop} {site : Site} {f : IR.Function}
    (h : Compiled abi known site f) : f.Printable where
  labels b hb := by
    rcases h.label_eq hb with hlabel | ⟨n, hn⟩
    · rw [hlabel]
      decide
    · exact isBare_of_isLabel hn
  asm b hb dst template constraints args hasm := by
    obtain ⟨rfl, rfl⟩ := h.instr_emitted hb hasm
    exact oneLine_abi abi

end SmallLisp
