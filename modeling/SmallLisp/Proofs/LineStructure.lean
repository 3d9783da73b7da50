import SmallLisp.Proofs.CompiledModule
import SmallLisp.Proofs.PrintedLines

/-! # Lines of printed modules

The structure of a module says which lines its text should have, and in which order. Names of functions, parameters
and callees never change that. The name of the module stands as it is in the comment of the first line, so each
newline in it makes a line more; the lines after the comment are those that the structure says.
-/
namespace SmallLisp.IR

inductive LineKind where
  | comment | sourceName | blank | header | label | instruction | terminator | close
deriving DecidableEq

def enclosed (first last line : List Char) : Bool := first.isPrefixOf line && last.isSuffixOf line

/-- The kind of a line, as its text alone shows it. -/
def LineKind.ofLine? (line : List Char) : Option LineKind :=
  if line = [] then some blank
  else if line = ['\x7d'] then some close
  else if enclosed "; ModuleID = '".toList "'".toList line then some comment
  else if enclosed "source_filename = \"".toList "\"".toList line then some sourceName
  else if enclosed "define i64 @".toList " \x7b".toList line then some header
  else if "  ret ".toList.isPrefixOf line || "  br ".toList.isPrefixOf line then some terminator
  else if "  ".toList.isPrefixOf line then some instruction
  else if ":".toList.isSuffixOf line then some label
  else none

def Block.lineKinds (b : Block) : List LineKind :=
  .label :: b.instrs.map (fun _ => .instruction) ++ [.terminator]

def Function.lineKinds (f : Function) : List LineKind :=
  .header :: [.blank].intercalate (f.blocks.map (·.lineKinds)) ++ [.close]

def Module.lineKinds (m : Module) : List LineKind :=
  .comment :: .sourceName :: m.functions.flatMap (.blank :: ·.lineKinds)

def textLines (text : String) : List (List Char) := (text.toList.splitOn '\n').dropLast

/-- The text of a module has the lines that its parts were printed as, each of the kind that the structure has at its
place, and no others. -/
structure Module.WellLined (m : Module) : Prop where
  lines : textLines m.text = m.lines.map String.toList
  kinds : (textLines m.text).map LineKind.ofLine? = m.lineKinds.map some

/-! ## Cutting a text into lines -/

/-- Where lines follow a text that ends its line, they are cut apart and the text is cut for itself. -/
theorem textLines_append {first : String} {lines : List String} (h : ∀ line ∈ lines, OneLine line) :
    textLines (first ++ "\n" ++ unlines lines) = first.toList.splitOn '\n' ++ lines.map String.toList := by
  have htext : (first ++ "\n" ++ unlines lines).toList = first.toList ++ '\n' :: (unlines lines).toList := by
    rw [String.toList_append, String.toList_append, List.append_assoc]
    rfl
  rw [textLines, htext, List.splitOn_append_cons_self, splitOn_unlines h, ← List.append_assoc, List.dropLast_concat]

/-! ## Kinds of lines -/

theorem enclosed_append (first middle last : List Char) : enclosed first last (first ++ middle ++ last) = true := by
  rw [enclosed, Bool.and_eq_true]
  constructor
  · exact List.isPrefixOf_iff_prefix.mpr (List.append_assoc .. ▸ List.prefix_append ..)
  · exact List.isSuffixOf_iff_suffix.mpr (List.suffix_append ..)

theorem not_enclosed {c d : Char} {first last line : List Char} (h : c ≠ d) :
    enclosed (c :: first) last (d :: line) = false := by
  rw [enclosed, List.isPrefixOf_cons_cons, beq_false_of_ne h, Bool.false_and, Bool.false_and]

/-- A text with a blank does not start a line without one. -/
theorem isPrefixOf_of_noBlank {first line : List Char} (hfirst : ' ' ∈ first) (h : ' ' ∉ line) :
    first.isPrefixOf line = false :=
  Bool.eq_false_iff.mpr fun hp => h ((List.isPrefixOf_iff_prefix.mp hp).subset hfirst)

theorem not_enclosed_of_noBlank {first last line : List Char} (hfirst : ' ' ∈ first) (h : ' ' ∉ line) :
    enclosed first last line = false := by
  rw [enclosed, isPrefixOf_of_noBlank hfirst h, Bool.false_and]

namespace LineKind

theorem ofLine?_comment (name : String) : ofLine? ("; ModuleID = '" ++ name ++ "'").toList = some .comment := by
  have henclosed := enclosed_append "; ModuleID = '".toList name.toList "'".toList
  rw [String.toList_append, String.toList_append]
  rw [ofLine?, if_neg (by simp), if_neg (by simp), if_pos henclosed]

theorem ofLine?_sourceName (name : String) :
    ofLine? ("source_filename = " ++ Name.quoted name).toList = some .sourceName := by
  have hline : ("source_filename = " ++ Name.quoted name).toList =
      "source_filename = \"".toList ++ name.toList.flatMap Name.escapeChar ++ "\"".toList := by
    simp [Name.quoted, String.toList_append]
  have henclosed := enclosed_append "source_filename = \"".toList (name.toList.flatMap Name.escapeChar) "\"".toList
  have hcomment : enclosed "; ModuleID = '".toList "'".toList
      ("source_filename = \"".toList ++ name.toList.flatMap Name.escapeChar ++ "\"".toList) = false :=
    not_enclosed (by decide)
  rw [hline, ofLine?, if_neg (by simp), if_neg (by simp), hcomment, if_neg Bool.false_ne_true, if_pos henclosed]

theorem ofLine?_header (f : Function) : ofLine? f.header.toList = some .header := by
  obtain ⟨middle, hline⟩ : ∃ middle, f.header.toList = "define i64 @".toList ++ middle ++ " \x7b".toList := by
    refine ⟨Name.printed f.name ++ (tuple (f.params.map ("i64 " ++ paramText ·))).toList, ?_⟩
    simp [Function.header, String.toList_append, Name.toList_text]
  have hcomment : enclosed "; ModuleID = '".toList "'".toList
      ("define i64 @".toList ++ middle ++ " \x7b".toList) = false :=
    not_enclosed (by decide)
  have hname : enclosed "source_filename = \"".toList "\"".toList
      ("define i64 @".toList ++ middle ++ " \x7b".toList) = false := not_enclosed (by decide)
  rw [hline, ofLine?, if_neg (by simp), if_neg (by simp), hcomment, if_neg Bool.false_ne_true, hname,
    if_neg Bool.false_ne_true, if_pos (enclosed_append _ _ _)]

theorem ofLine?_label {label : String} (h : Name.isBare label = true) :
    ofLine? (label ++ ":").toList = some .label := by
  have hblank : ' ' ∉ (label ++ ":").toList := by
    rw [String.toList_append, List.mem_append]
    rintro (hmem | hmem)
    · cases Name.isBareChar_of_isBare h _ hmem
    · exact absurd hmem (by decide)
  have hnil : (label ++ ":").toList ≠ [] := by simp [String.toList_append]
  have hclose : (label ++ ":").toList ≠ ['\x7d'] := by
    intro he
    have hlast := congrArg List.getLast? he
    simp [String.toList_append] at hlast
  have hend : ":".toList.isSuffixOf (label ++ ":").toList = true := by
    rw [String.toList_append]
    exact List.isSuffixOf_iff_suffix.mpr (List.suffix_append ..)
  have henclosed (first last : List Char) (hfirst : ' ' ∈ first) :
      enclosed first last (label ++ ":").toList = false :=
    not_enclosed_of_noBlank hfirst hblank
  have hprefix (first : List Char) (hfirst : ' ' ∈ first) : first.isPrefixOf (label ++ ":").toList = false :=
    isPrefixOf_of_noBlank hfirst hblank
  simp (disch := decide) only [ofLine?, if_neg hnil, if_neg hclose, henclosed, hprefix, hend, Bool.or_self,
    Bool.false_eq_true, if_false, if_true]

/-- A line that starts with two blanks is for an instruction or a terminator. -/
theorem ofLine?_indented (text : String) : ofLine? ("  " ++ text).toList =
    if "ret ".toList.isPrefixOf text.toList || "br ".toList.isPrefixOf text.toList then some .terminator
    else some .instruction := by
  rw [String.toList_append]
  rfl

theorem ofLine?_instr (f : Function) (i : Instr) : ofLine? ("  " ++ i.text f).toList = some .instruction := by
  rw [ofLine?_indented]
  cases i <;> simp only [Instr.text, Reg.text, String.toList_append, List.append_assoc] <;> rfl

theorem ofLine?_terminator (f : Function) (t : Terminator) :
    ofLine? ("  " ++ t.text f).toList = some .terminator := by
  rw [ofLine?_indented]
  cases t <;> simp only [Terminator.text, String.toList_append, List.append_assoc] <;> rfl

end LineKind

theorem ofLine?_block {f : Function} {b : Block} (h : Name.isBare b.label = true) :
    (b.lines f).map (fun line => LineKind.ofLine? line.toList) = b.lineKinds.map some := by
  simp only [Block.lines, Block.lineKinds, List.map_cons, List.map_append, List.map_map, List.map_nil,
    LineKind.ofLine?_label h, LineKind.ofLine?_terminator, Function.comp_def, LineKind.ofLine?_instr]

theorem map_intercalate {α β : Type} (g : α → β) (sep : List α) (ls : List (List α)) :
    (sep.intercalate ls).map g = (sep.map g).intercalate (ls.map (·.map g)) := by
  induction ls with
  | nil => rfl
  | cons l ls ih =>
    by_cases hls : ls = []
    · subst hls
      simp
    · rw [List.map_cons, List.intercalate_cons_of_ne_nil hls, List.intercalate_cons_of_ne_nil (by simpa using hls),
        List.map_append, List.map_append, ih]

theorem Function.Printable.ofLine?_lines {f : Function} (h : f.Printable) :
    f.lines.map (fun line => LineKind.ofLine? line.toList) = f.lineKinds.map some := by
  have hblocks : f.blocks.map (fun b => (b.lines f).map fun line => LineKind.ofLine? line.toList) =
      f.blocks.map fun b => b.lineKinds.map some :=
    List.map_congr_left fun b hb => ofLine?_block (h.labels b hb)
  have hblank : LineKind.ofLine? "".toList = some .blank := rfl
  have hclose : LineKind.ofLine? "\x7d".toList = some .close := rfl
  simp only [lines, lineKinds, List.map_cons, List.map_append, List.map_nil, LineKind.ofLine?_header, map_intercalate,
    List.map_map, Function.comp_def, hblocks, hblank, hclose]

/-! ## Modules -/

theorem oneLine_quoted (name : String) : OneLine (Name.quoted name) := by
  rw [OneLine, Name.quoted, String.toList_ofList]
  exact Name.not_mem_quoted (by decide) name.toList

namespace Module
variable {m : Module}

def bodyLines (m : Module) : List String :=
  ("source_filename = " ++ Name.quoted m.name) :: m.functions.flatMap ("" :: ·.lines)

theorem text_eq (m : Module) : m.text = "; ModuleID = '" ++ m.name ++ "'" ++ "\n" ++ unlines m.bodyLines := by
  rw [text, lines, unlines, List.map_cons, String.join_cons]
  rfl

theorem oneLine_bodyLines (h : ∀ f ∈ m.functions, f.Printable) : ∀ line ∈ m.bodyLines, OneLine line := by
  intro line hline
  rcases List.mem_cons.mp hline with rfl | hline
  · exact oneLine_append.mpr ⟨by decide, oneLine_quoted m.name⟩
  · obtain ⟨f, hf, hline⟩ := List.mem_flatMap.mp hline
    rcases List.mem_cons.mp hline with rfl | hline
    · decide
    · exact (h f hf).oneLine line hline

/-- The comment is cut where the name has newlines. -/
theorem textLines_text (h : ∀ f ∈ m.functions, f.Printable) : textLines m.text =
    ("; ModuleID = '" ++ m.name ++ "'").toList.splitOn '\n' ++ m.bodyLines.map String.toList := by
  rw [text_eq, textLines_append (oneLine_bodyLines h)]

theorem ofLine?_bodyLines (h : ∀ f ∈ m.functions, f.Printable) :
    m.bodyLines.map (fun line => LineKind.ofLine? line.toList) = m.lineKinds.tail.map some := by
  have hblank : LineKind.ofLine? "".toList = some .blank := rfl
  have hfunctions : ∀ f ∈ m.functions, (("" :: f.lines).map fun line => LineKind.ofLine? line.toList) =
      (.blank :: f.lineKinds).map some := by
    intro f hf
    rw [List.map_cons, (h f hf).ofLine?_lines, hblank, List.map_cons]
  rw [bodyLines, lineKinds, List.map_cons, LineKind.ofLine?_sourceName, List.tail_cons, List.map_cons, List.map_flatMap,
    List.map_flatMap, List.flatMap_congr hfunctions]

theorem count_comment (m : Module) :
    ("; ModuleID = '" ++ m.name ++ "'").toList.count '\n' = m.name.toList.count '\n' := by
  have hfirst : "; ModuleID = '".toList.count '\n' = 0 := by decide
  have hlast : "'".toList.count '\n' = 0 := by decide
  rw [String.toList_append, String.toList_append, List.count_append, List.count_append, hfirst, hlast, Nat.zero_add,
    Nat.add_zero]

/-- The lines of a module, as they are and as they should be: newlines in its name come on top. -/
theorem wellLined_iff (h : ∀ f ∈ m.functions, f.Printable) :
    (textLines m.text).length = m.lineKinds.length + m.name.toList.count '\n' ∧
    (((textLines m.text).drop (m.name.toList.count '\n' + 1)).map LineKind.ofLine? = m.lineKinds.tail.map some) ∧
    (m.WellLined ↔ OneLine m.name) := by
  have hkinds := ofLine?_bodyLines h
  have hcomment := length_splitOn '\n' ("; ModuleID = '" ++ m.name ++ "'").toList
  rw [count_comment] at hcomment
  have hlength : (textLines m.text).length = m.lineKinds.length + m.name.toList.count '\n' := by
    have hbody := congrArg List.length hkinds
    rw [List.length_map, List.length_map, List.length_tail] at hbody
    have hpos : 0 < m.lineKinds.length := Nat.succ_pos _
    rw [textLines_text h, List.length_append, List.length_map, hcomment, hbody]
    omega
  refine ⟨hlength, ?_, fun hw => ?_, fun hone => ?_⟩
  · rw [textLines_text h, ← hcomment, List.drop_left, List.map_map, ← hkinds]
    rfl
  · have hcount := congrArg List.length hw.kinds
    rw [List.length_map, List.length_map, hlength] at hcount
    exact List.count_eq_zero.mp (by omega)
  · have hsplit : ("; ModuleID = '" ++ m.name ++ "'").toList.splitOn '\n' =
        [("; ModuleID = '" ++ m.name ++ "'").toList] :=
      List.splitOn_eq_singleton (oneLine_append.mpr ⟨oneLine_append.mpr ⟨by decide, hone⟩, by decide⟩)
    refine ⟨?_, ?_⟩
    · rw [textLines_text h, hsplit]
      rfl
    · rw [textLines_text h, hsplit, List.singleton_append, List.map_cons, LineKind.ofLine?_comment, List.map_map]
      exact congrArg (some LineKind.comment :: ·) hkinds

end Module
end SmallLisp.IR

namespace SmallLisp

theorem printable_of_compile {abi : IR.Abi} {name : String} {program : List Expr} {m : IR.Module}
    (h : compile abi name program = .ok m) : ∀ f ∈ m.functions, f.Printable := by
  intro f hf
  obtain ⟨site, -, hsite⟩ := (compiledProgram_of_compile h).exists_site hf
  exact hsite.printable

/-- However a program names its functions, parameters and callees, and whatever its module is called, the text of the
module has a line more for each newline in the name of the module, and the lines after the comment with that name are
those that the structure says. So all lines are, if and only if the name of the module is on one line. -/
theorem compile_wellLined_iff {abi : IR.Abi} {name : String} {program : List Expr} {m : IR.Module}
    (h : compile abi name program = .ok m) :
    (IR.textLines m.text).length = m.lineKinds.length + name.toList.count '\n' ∧
    ((IR.textLines m.text).drop (name.toList.count '\n' + 1)).map IR.LineKind.ofLine? = m.lineKinds.tail.map some ∧
    (m.WellLined ↔ IR.OneLine name) := by
  rw [← name_of_compile h]
  exact IR.Module.wellLined_iff (printable_of_compile h)

def brokenNames (s : Span) : List Expr := [.define ⟨"f\n", ["x\ny"], [.name "x\ny" s], s⟩ s]

/-- Names within a module break no line. -/
theorem compile_wellLined_iff_brokenNames :
    ∃ m, compile .linuxX64 "m" (brokenNames ⟨0, 1⟩) = .ok m ∧ m.WellLined := by
  have hok : (compile .linuxX64 "m" (brokenNames ⟨0, 1⟩)).toOption.isSome = true := by decide +kernel
  cases hm : compile .linuxX64 "m" (brokenNames ⟨0, 1⟩) with
  | error e =>
    rw [hm] at hok
    cases hok
  | ok m => exact ⟨m, rfl, (compile_wellLined_iff hm).2.2.mpr (by decide)⟩

/-- A newline in the name of a module puts the rest of the name on a line of its own. -/
theorem compile_broken_comment : ∃ m,
    compile .linuxX64 "a\nb" [.define ⟨"main", [], [.int 1 ⟨13, 14⟩], ⟨0, 15⟩⟩ ⟨0, 15⟩] = .ok m ∧
    (IR.textLines m.text)[1]? = some "b'".toList ∧ ¬ m.WellLined := by
  have hlines :
      (compile .linuxX64 "a\nb" [.define ⟨"main", [], [.int 1 ⟨13, 14⟩], ⟨0, 15⟩⟩ ⟨0, 15⟩]).toOption.map
        (fun m => (IR.textLines m.text)[1]?) = some (some "b'".toList) := by decide +kernel
  obtain ⟨m, hm, hline⟩ := exists_of_map_toOption hlines
  refine ⟨m, hm, hline, fun hw => ?_⟩
  have hname : IR.OneLine m.name := (IR.Module.wellLined_iff (printable_of_compile hm)).2.2.mp hw
  rw [name_of_compile hm] at hname
  exact absurd hname (by decide)

end SmallLisp
