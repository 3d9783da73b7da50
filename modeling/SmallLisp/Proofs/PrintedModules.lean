import SmallLisp.Proofs.ControlFlow
import SmallLisp.Proofs.FunctionRules
import SmallLisp.Proofs.PrintedInstructions

/-! # Printing loses nothing

The text of a module falls into lines, the lines into functions and those of a function into blocks. So two compiled
modules with the same text have the same functions with the same blocks, one by one, and the same instructions in
them. Only the identities of blocks do not stand in a text, and the labels tell which blocks belong together.
-/
namespace SmallLisp.IR

/-! ## Other identities of blocks -/

def Block.renameBlocks (ρ : BlockId → BlockId) (b : Block) : Block where
  id := ρ b.id
  label := b.label
  instrs := b.instrs.map (·.renameBlocks ρ)
  terminator := b.terminator.renameBlocks ρ

def Function.renameBlocks (ρ : BlockId → BlockId) (f : Function) : Function :=
  { f with blocks := f.blocks.map (·.renameBlocks ρ) }

/-- Functions that differ in the identities of their blocks alone. -/
def Function.SameUpToBlocks (f f' : Function) : Prop :=
  ∃ ρ : BlockId → BlockId, (∀ b ∈ f.blocks, ∀ d ∈ f.blocks, ρ b.id = ρ d.id → b.id = d.id) ∧
    f' = f.renameBlocks ρ

structure Module.SameUpToBlocks (m m' : Module) : Prop where
  name : m.name = m'.name
  functions : List.Forall₂ Function.SameUpToBlocks m.functions m'.functions

/-- A function whose text says everything about it except for the identities of its blocks. -/
structure Function.Legible (f : Function) : Prop where
  printable : f.Printable
  valid : f.Valid
  distinct : (f.blocks.map (·.id)).Nodup
  asm : ∀ b ∈ f.blocks, ∀ dst template constraints args, .asm dst template constraints args ∈ b.instrs →
    '"' ∉ template.toList ∧ '"' ∉ constraints.toList

/-! ## Lists that end in a mark -/

section Lists
variable {α β : Type}

theorem forall₂_of_map_eq {γ : Type} {R : α → γ → Prop} {p : α → β} {q : γ → β} {xs : List α}
    {ys : List γ} (h : xs.map p = ys.map q) (hR : ∀ x ∈ xs, ∀ y ∈ ys, p x = q y → R x y) :
    List.Forall₂ R xs ys := by
  induction xs generalizing ys with
  | nil =>
    cases ys with
    | nil => exact .nil
    | cons y ys => cases h
  | cons x xs ih =>
    cases ys with
    | nil => cases h
    | cons y ys =>
      obtain ⟨hxy, h⟩ := List.cons.inj h
      refine .cons (hR x List.mem_cons_self y List.mem_cons_self hxy) (ih h fun x hx y hy => ?_)
      exact hR x (List.mem_cons_of_mem _ hx) y (List.mem_cons_of_mem _ hy)

/-- Lists that are put one after the other, each with the same mark behind it, are told apart. -/
theorem map_eq_of_flatMap {p q : α → List β} {mark : β} {xs ys : List α} (hx : ∀ x ∈ xs, mark ∉ p x)
    (hy : ∀ y ∈ ys, mark ∉ q y) (h : xs.flatMap (p · ++ [mark]) = ys.flatMap (q · ++ [mark])) :
    xs.map p = ys.map q := by
  induction xs generalizing ys with
  | nil =>
    cases ys with
    | nil => rfl
    | cons y ys => simp at h
  | cons x xs ih =>
    cases ys with
    | nil => simp at h
    | cons y ys =>
      simp only [List.flatMap_cons, List.append_assoc, List.singleton_append] at h
      obtain ⟨hxy, h⟩ := append_cons_inj (hx x List.mem_cons_self) (hy y List.mem_cons_self) h
      rw [List.map_cons, List.map_cons, hxy, ih (fun x hm => hx x (List.mem_cons_of_mem _ hm))
        (fun y hm => hy y (List.mem_cons_of_mem _ hm)) h]

/-- Lists with a mark between them, none of which is empty or has the mark, are told apart. -/
theorem eq_of_intercalate [BEq β] [LawfulBEq β] {mark : β} {ls ls' : List (List β)}
    (hl : ∀ l ∈ ls, l ≠ [] ∧ mark ∉ l) (hl' : ∀ l ∈ ls', l ≠ [] ∧ mark ∉ l)
    (h : [mark].intercalate ls = [mark].intercalate ls') : ls = ls' := by
  have hnil {l : List β} {ls : List (List β)} (hne : l ≠ []) : [mark].intercalate (l :: ls) ≠ [] := by
    rw [intercalate_cons]
    exact List.append_ne_nil_of_left_ne_nil hne _
  cases ls with
  | nil =>
    cases ls' with
    | nil => rfl
    | cons l' ls' => exact absurd h.symm (hnil (hl' l' List.mem_cons_self).1)
  | cons l ls =>
    cases ls' with
    | nil => exact absurd h (hnil (hl l List.mem_cons_self).1)
    | cons l' ls' =>
      rw [← List.splitOn_intercalate mark (fun l hm => (hl l hm).2) (List.cons_ne_nil l ls), h,
        List.splitOn_intercalate mark (fun l hm => (hl' l hm).2) (List.cons_ne_nil l' ls')]

end Lists

/-! ## Lines of blocks -/

section Blocks
variable {f f' : Function} {b b' : Block}

/-- The lines of a block are neither empty nor a closing brace. -/
theorem not_mem_lines (f : Function) (b : Block) : "" ∉ b.lines f ∧ "\x7d" ∉ b.lines f := by
  have hline : ∀ line ∈ b.lines f, line.toList ≠ [] ∧ line.toList ≠ ['\x7d'] := by
    intro line hline
    simp only [Block.lines, List.cons_append, List.mem_cons, List.mem_append, List.mem_map, List.not_mem_nil,
      or_false] at hline
    rcases hline with rfl | ⟨i, -, rfl⟩ | rfl
    · rw [String.toList_append]
      cases b.label.toList with
      | nil => decide
      | cons c cs => simp
    · rw [String.toList_append]
      simp
    · rw [String.toList_append]
      simp
  exact ⟨fun h => (hline _ h).1 rfl, fun h => (hline _ h).2 rfl⟩

theorem label_of_lines (h : b.lines f = b'.lines f') : b.label = b'.label := by
  have hlabel := congrArg String.toList (List.cons.inj h).1
  rw [String.toList_append, String.toList_append] at hlabel
  exact String.toList_inj.mp (List.append_cancel_right hlabel)

namespace Function

theorem label?_of_mem (h : f.Legible) (hb : b ∈ f.blocks) : f.label? b.id = some b.label := by
  rw [label?, block?, find?_of_nodup h.distinct hb]
  rfl

theorem isSome_label? (h : f.Legible) {id : BlockId} (hid : f.Mentions id) : (f.label? id).isSome := by
  obtain ⟨b, hb, rfl⟩ := h.valid.exist id hid
  rw [label?_of_mem h hb]
  rfl

/-- The identity that a block has in another function with the same labels. -/
def counterpart (f f' : Function) (id : BlockId) : BlockId :=
  ((f.label? id).bind fun label => f'.blocks.find? (·.label == label)).elim id (·.id)

theorem counterpart_eq (h' : f'.Legible) ⦃id id' : BlockId⦄ ⦃label : String⦄ (hlabel : f.label? id = some label)
    (hlabel' : f'.label? id' = some label) : f.counterpart f' id = id' := by
  obtain ⟨b, hb, rfl⟩ := Option.map_eq_some_iff.mp hlabel'
  obtain ⟨hmem, rfl⟩ := exists_of_block? hb
  rw [counterpart, hlabel, Option.bind_some, find?_of_nodup h'.valid.labels hmem]
  rfl

end Function

theorem joins_of_mem_blocks {i : Instr} (hi : i ∈ b.instrs) {id : BlockId} (hid : id ∈ i.blocks) : b.Joins id := by
  cases i with
  | phi dst incoming => exact ⟨dst, incoming, hi, hid⟩
  | _ => cases hid

/-- Blocks that are printed alike are the same but for identities. -/
theorem Block.eq_renameBlocks (hf : f.Legible) (hf' : f'.Legible) (hb : b ∈ f.blocks) (hb' : b' ∈ f'.blocks)
    (h : b.lines f = b'.lines f') : b.renameBlocks (f.counterpart f') = b' := by
  have hlabel := label_of_lines h
  have hid : f.counterpart f' b.id = b'.id :=
    Function.counterpart_eq hf' (hlabel ▸ Function.label?_of_mem hf hb) (Function.label?_of_mem hf' hb')
  obtain ⟨hinstrs, hterminator⟩ := List.append_inj' (List.cons.inj h).2 rfl
  have hterminator : b.terminator.renameBlocks (f.counterpart f') = b'.terminator := by
    refine (Terminator.eq_renameBlocks (Function.counterpart_eq hf') (fun id hid => ?_) (fun id hid => ?_) ?_).symm
    · exact Function.isSome_label? hf ⟨b, hb, .inl hid⟩
    · exact Function.isSome_label? hf' ⟨b', hb', .inl hid⟩
    · have hline := congrArg String.toList (List.singleton_inj.mp hterminator)
      rw [String.toList_append, String.toList_append] at hline
      exact List.append_cancel_left hline
  have hinstrs : b.instrs.map (·.renameBlocks (f.counterpart f')) = b'.instrs := by
    rw [← List.forall₂_eq_eq_eq, List.forall₂_map_left_iff]
    refine forall₂_of_map_eq hinstrs fun i hi j hj hline => ?_
    rw [← String.toList_inj, String.toList_append, String.toList_append] at hline
    refine (Instr.eq_renameBlocks (Function.counterpart_eq hf') (fun id hid => ?_) (fun id hid => ?_) ?_
      (List.append_cancel_left hline)).symm
    · exact Function.isSome_label? hf ⟨b, hb, .inr (joins_of_mem_blocks hi hid)⟩
    · exact Function.isSome_label? hf' ⟨b', hb', .inr (joins_of_mem_blocks hj hid)⟩
    · rintro dst template constraints args (rfl | rfl)
      · exact hf.asm b hb _ _ _ _ hi
      · exact hf'.asm b' hb' _ _ _ _ hj
  cases b'
  rw [renameBlocks, hlabel, hid, hinstrs, hterminator]

/-! ## Lines of functions -/

/-- The first line of a function tells its name and its parameters. -/
theorem header_inj (h : f.header = f'.header) : f.name = f'.name ∧ f.params = f'.params := by
  rw [← String.toList_inj, f.toList_header, f'.toList_header] at h
  obtain ⟨hname, hrest⟩ := printed_tells f.name f'.name (stops_cons (by decide) _) (stops_cons (by decide) _)
    (List.append_cancel_left h)
  have hparam (x y : String) : Tells ("i64 " ++ paramText x).toList ("i64 " ++ paramText y).toList (x = y) := by
    rw [String.toList_append, String.toList_append]
    exact ((name_tells '%' _ _).mono (String.append_right_inj "arg.").mp).fixed_append _
  have hitem (x : String) (s : List Char) : ¬ Stops isItemChar (("i64 " ++ paramText x).toList ++ s) := by
    rw [String.toList_append]
    exact fun hs => absurd (hs 'i' rfl) (by decide)
  have hparams := (forall₂_of_intercalate (fun x _ y _ => hparam x y) (fun x _ => hitem x) (fun y _ => hitem y)
    (stops_cons (by decide) _) (stops_cons (by decide) _) (List.tail_eq_of_cons_eq hrest)).1
  rw [List.forall₂_eq_eq_eq] at hparams
  exact ⟨hname, hparams⟩

namespace Function

def openLines (f : Function) : List String := "" :: f.header :: [""].intercalate (f.blocks.map (·.lines f))

theorem brace_not_mem (f : Function) : "\x7d" ∉ f.openLines := by
  intro h
  rcases List.mem_cons.mp h with h | h
  · exact absurd h (by decide)
  rcases List.mem_cons.mp h with h | h
  · have hheader := congrArg String.toList h
    rw [f.toList_header] at hheader
    cases hheader
  rcases mem_of_mem_intercalate h with h | ⟨lines, hlines, h⟩
  · exact absurd h (by decide)
  · obtain ⟨b, -, rfl⟩ := List.mem_map.mp hlines
    exact (not_mem_lines f b).2 h

/-- Functions with the same lines are the same but for the identities of their blocks. -/
theorem sameUpToBlocks_of_lines (hf : f.Legible) (hf' : f'.Legible) (h : f.openLines = f'.openLines) :
    f.SameUpToBlocks f' := by
  obtain ⟨hheader, hlines⟩ := List.cons.inj (List.cons.inj h).2
  obtain ⟨hname, hparams⟩ := header_inj hheader
  have hblocks (f : Function) : ∀ lines ∈ f.blocks.map (·.lines f), lines ≠ [] ∧ "" ∉ lines := by
    intro lines hl
    obtain ⟨b, -, rfl⟩ := List.mem_map.mp hl
    exact ⟨List.cons_ne_nil _ _, (not_mem_lines f b).1⟩
  have hrename : f.blocks.map (·.renameBlocks (f.counterpart f')) = f'.blocks := by
    rw [← List.forall₂_eq_eq_eq, List.forall₂_map_left_iff]
    exact forall₂_of_map_eq (eq_of_intercalate (hblocks f) (hblocks f') hlines) fun b hb b' hb' hbb' =>
      Block.eq_renameBlocks hf hf' hb hb' hbb'
  refine ⟨f.counterpart f', fun b hb d hd hid => ?_, ?_⟩
  · -- blocks that get one identity are one block of the other function, which has the labels of both
    have hmem {b : Block} (hb : b ∈ f.blocks) : b.renameBlocks (f.counterpart f') ∈ f'.blocks :=
      hrename ▸ List.mem_map_of_mem hb
    have hlabel := congrArg Block.label (List.inj_on_of_nodup_map hf'.distinct (hmem hb) (hmem hd) hid)
    rw [List.inj_on_of_nodup_map hf.valid.labels hb hd hlabel]
  · rw [renameBlocks, hrename, hname, hparams]

end Function
end Blocks

/-! ## Modules -/

theorem unlines_cons (line : String) (lines : List String) :
    unlines (line :: lines) = line ++ "\n" ++ unlines lines := by
  rw [unlines, List.map_cons, String.join_cons]
  rfl

theorem unlines_inj {lines lines' : List String} (h : ∀ line ∈ lines, OneLine line)
    (h' : ∀ line ∈ lines', OneLine line) (he : unlines lines = unlines lines') : lines = lines' := by
  have hsplit := splitOn_unlines h
  rw [he, splitOn_unlines h'] at hsplit
  exact (List.map_injective_iff.mpr (fun _ _ => String.toList_inj.mp) (List.append_cancel_right hsplit)).symm

/-- Modules with one name and one text are the same but for the identities of blocks. -/
theorem Module.sameUpToBlocks_of_text {m m' : Module} (hm : ∀ f ∈ m.functions, f.Legible)
    (hm' : ∀ f ∈ m'.functions, f.Legible) (hname : m.name = m'.name) (h : m.text = m'.text) :
    m.SameUpToBlocks m' := by
  have honeLine {m : Module} (hm : ∀ f ∈ m.functions, f.Legible) :
      ∀ line ∈ m.functions.flatMap ("" :: ·.lines), OneLine line := by
    intro line hline
    obtain ⟨f, hf, hline⟩ := List.mem_flatMap.mp hline
    rcases List.mem_cons.mp hline with rfl | hline
    · decide
    · exact (hm f hf).printable.oneLine line hline
  have hlines : m.functions.flatMap (·.openLines ++ ["\x7d"]) = m'.functions.flatMap (·.openLines ++ ["\x7d"]) := by
    refine unlines_inj (honeLine hm) (honeLine hm') ?_
    rw [text, text, lines, lines, unlines_cons, unlines_cons, unlines_cons, unlines_cons, hname] at h
    exact (String.append_right_inj _).mp ((String.append_right_inj _).mp h)
  have hopen := map_eq_of_flatMap (fun f _ => f.brace_not_mem) (fun f _ => f.brace_not_mem) hlines
  exact ⟨hname, forall₂_of_map_eq hopen fun f hf f' hf' =>
    Function.sameUpToBlocks_of_lines (hm f hf) (hm' f' hf')⟩

end SmallLisp.IR

namespace SmallLisp

theorem quote_not_mem_abi (abi : IR.Abi) : '"' ∉ abi.template.toList ∧ '"' ∉ abi.constraints.toList := by
  cases abi <;> decide

theorem Compiled.legible {abi : IR.Abi} {known : String → Nat → Prop} {site : Site} {f : IR.Function}
    (h : Compiled abi known site f) : f.Legible where
  printable := h.printable
  valid := IR.Function.valid_of_verify h.verify_ok
  distinct := h.wellShaped.distinct
  asm b hb dst template constraints args hasm := by
    obtain ⟨rfl, rfl⟩ := h.instr_emitted hb hasm
    exact quote_not_mem_abi abi

/-- Programs, for whatever systems, that are compiled to modules with one name and one text are compiled to modules
that differ in the identities of blocks alone. -/
theorem compile_text_inj {abi abi' : IR.Abi} {name : String} {program program' : List Expr} {m m' : IR.Module}
    (h : compile abi name program = .ok m) (h' : compile abi' name program' = .ok m') (htext : m.text = m'.text) :
    m.SameUpToBlocks m' := by
  have hlegible {abi : IR.Abi} {program : List Expr} {m : IR.Module} (h : compile abi name program = .ok m) :
      ∀ f ∈ m.functions, f.Legible := by
    intro f hf
    obtain ⟨site, -, hsite⟩ := (compiledProgram_of_compile h).exists_site hf
    exact hsite.legible
  refine IR.Module.sameUpToBlocks_of_text (hlegible h) (hlegible h') ?_ htext
  rw [name_of_compile h, name_of_compile h']

/-- The program `(def f (x) (if (< x 1) x 2))`, with one span at all places. -/
def choiceProgram (s : Span) : List Expr :=
  [.define ⟨"f", ["x"], [.branch ⟨"<", [.name "x" s, .int 1 s], s⟩ (.name "x" s) (some (.int 2 s)) s], s⟩ s]

theorem compile_text_inj_choiceProgram : ∃ m m', compile .linuxX64 "m" (choiceProgram ⟨0, 1⟩) = .ok m ∧
    compile .darwinArm64 "m" (choiceProgram ⟨2, 3⟩) = .ok m' ∧ m.text = m'.text ∧ m.SameUpToBlocks m' := by
  have hok : (compile .linuxX64 "m" (choiceProgram ⟨0, 1⟩)).toOption.isSome = true := by decide +kernel
  have htext : (compile .linuxX64 "m" (choiceProgram ⟨0, 1⟩)).toOption.map IR.Module.text =
      (compile .darwinArm64 "m" (choiceProgram ⟨2, 3⟩)).toOption.map IR.Module.text := by decide +kernel
  cases hm : compile .linuxX64 "m" (choiceProgram ⟨0, 1⟩) with
  | error e =>
    rw [hm] at hok
    cases hok
  | ok m =>
    rw [hm] at htext
    obtain ⟨m', hm', htext⟩ := exists_of_map_toOption htext.symm
    exact ⟨m, m', rfl, hm', htext.symm, compile_text_inj hm hm' htext.symm⟩

end SmallLisp
