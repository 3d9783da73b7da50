import SmallLisp.Proofs.CompiledSource
import SmallLisp.Proofs.Paths
import SmallLisp.Proofs.PrintedLines
import Mathlib.Data.List.Perm.Basic

/-! # Local names

The parameters of a function, its blocks and the results of its instructions have local names, and LLVM
wants each name defined once. The names that a text defines are read off its lines. In the text of a
compiled function the three kinds of names never meet, and the names of blocks and results are made from
fresh numbers; names of parameters are taken over from the source as they are.
-/
namespace SmallLisp.IR

/-! ## Reading -/

/-- The local names in a line. Other names in quotes are passed over. -/
def locals : List Char → List (List UInt8)
  | [] => []
  | c :: cs =>
    if c = '%' then
      match _h : Name.read? cs with
      | some (name, rest) => name :: locals rest
      | none => locals cs
    -- a quoted name after another sigil may hold a percent sign
    else if c = '"' then locals ((cs.dropWhile (· != '"')).drop 1)
    else locals cs
termination_by cs => cs.length
decreasing_by
  · have := Name.length_of_read? _h
    simp only [List.length_cons]
    omega
  · simp
  · have hle : (cs.dropWhile (· != '"')).length ≤ cs.length := (List.dropWhile_sublist _).length_le
    simp only [List.length_drop, List.length_cons]
    omega
  · simp

def result? : List Char → Option (List UInt8)
  | ' ' :: ' ' :: '%' :: cs =>
    match Name.read? cs with
    | some (name, ' ' :: '=' :: _) => some name
    | _ => none
  | _ => none

def label? (line : List Char) : Option (List UInt8) :=
  match Name.read? line with
  | some (name, ':' :: _) => some name
  | _ => none

/-- The local names that a line defines: the first line of a function has its parameters. -/
def definedOn (line : List Char) : List (List UInt8) :=
  if "define ".toList.isPrefixOf line then locals line
  else (label? line).toList ++ (result? line).toList

def localNames (text : String) : List (List UInt8) := (text.toList.splitOn '\n').flatMap definedOn

def Function.madeNames (f : Function) : List String :=
  f.blocks.flatMap fun b => b.label :: (dsts b.instrs).map fun r => "sym" ++ toString r.index

def Function.localNames (f : Function) : List String := f.params.map ("arg." ++ ·) ++ f.madeNames

/-! ## The first line -/

def isPassed (c : Char) : Bool := c != '%' && c != '"'

theorem locals_skip {c : Char} (h : isPassed c = true) (cs : List Char) : locals (c :: cs) = locals cs := by
  simp only [isPassed, Bool.and_eq_true, bne_iff_ne] at h
  rw [locals, if_neg h.1, if_neg h.2]

theorem locals_append {cs : List Char} (h : cs.all isPassed = true) (rest : List Char) :
    locals (cs ++ rest) = locals rest := by
  induction cs with
  | nil => rfl
  | cons c cs ih =>
    obtain ⟨hc, hcs⟩ := Bool.and_eq_true_iff.mp h
    rw [List.cons_append, locals_skip hc, ih hcs]

/-- A name that is not local is passed over. -/
theorem locals_printed (name : String) (rest : List Char) : locals (Name.printed name ++ rest) = locals rest := by
  rw [Name.printed]
  split
  case isTrue h =>
    refine locals_append (List.all_eq_true.mpr fun d hd => ?_) rest
    have hd := Name.isBareChar_of_isBare h d hd
    simp only [isPassed, Bool.and_eq_true, bne_iff_ne]
    constructor <;> rintro rfl <;> cases hd
  case isFalse =>
    have hinside : ∀ d ∈ name.toList.flatMap Name.escapeChar, (d != '"') = true :=
      fun d hd => bne_iff_ne.mpr (Name.isInside_of_mem_escaped hd).2.2
    have hquote : Stops (· != '"') ('"' :: rest) := stops_cons (by decide) rest
    rw [List.append_assoc, List.cons_append, locals, if_neg (by decide), if_pos rfl, List.singleton_append,
      dropWhile_run hinside hquote]
    rfl

theorem locals_local (name : String) {rest : List Char} (h : Stops Name.isBareChar rest) :
    locals ('%' :: (Name.printed name ++ rest)) = Name.bytes name :: locals rest := by
  rw [locals, if_pos rfl]
  split
  case h_1 hread =>
    rw [Name.read?_printed name h] at hread
    cases hread
    rfl
  case h_2 hread =>
    rw [Name.read?_printed name h] at hread
    cases hread

/-- The parameters of a function are the local names on its first line. -/
theorem locals_parameters (params : List String) (rest : List Char) :
    locals (", ".toList.intercalate (params.map fun x => ("i64 " ++ paramText x).toList) ++ ')' :: rest) =
      (params.map ("arg." ++ ·)).map Name.bytes ++ locals rest := by
  have hone : ∀ x (rest : List Char), Stops Name.isBareChar rest →
      locals (("i64 " ++ paramText x).toList ++ rest) = Name.bytes ("arg." ++ x) :: locals rest := by
    intro x rest hrest
    rw [String.toList_append, paramText, Name.toList_text, List.append_assoc, locals_append (by decide)]
    exact locals_local _ hrest
  induction params with
  | nil => exact locals_skip (by decide) rest
  | cons x xs ih =>
    by_cases hxs : xs = []
    · subst hxs
      simp only [List.map_cons, List.map_nil, List.intercalate_singleton, List.singleton_append]
      rw [hone x _ (stops_cons (by decide) rest), locals_skip (by decide)]
    · have hcomma : ∀ rest, Stops Name.isBareChar (", ".toList ++ rest) := fun rest => stops_cons (by decide) _
      rw [List.map_cons, List.intercalate_cons_of_ne_nil (by simpa using hxs), List.append_assoc, List.append_assoc,
        hone x _ (hcomma _), locals_append (by decide), ih]
      rfl

theorem Function.toList_header (f : Function) : f.header.toList = "define i64 @".toList ++ (Name.printed f.name ++
    '(' :: (", ".toList.intercalate (f.params.map fun x => ("i64 " ++ paramText x).toList) ++
      ')' :: " \x7b".toList)) := by
  simp [header, tuple, String.toList_append, Name.toList_text, String.toList_intercalate, Function.comp_def]

theorem definedOn_header (f : Function) :
    definedOn f.header.toList = (f.params.map ("arg." ++ ·)).map Name.bytes := by
  have hprefix : "define ".toList.isPrefixOf f.header.toList = true := by
    rw [f.toList_header]
    rfl
  have hend : locals (" \x7b".toList ++ []) = locals [] := locals_append (by decide) []
  rw [definedOn, if_pos hprefix, f.toList_header, locals_append (by decide), locals_printed, locals_skip (by decide),
    locals_parameters, ← List.append_nil " \x7b".toList, hend, locals, List.append_nil]

/-! ## The other lines -/

theorem definedOn_of_blank {line : List Char} (h : line.head? = some ' ') : definedOn line = (result? line).toList := by
  obtain ⟨cs, rfl⟩ := List.head?_eq_some_iff.mp h
  rfl

theorem definedOn_of_noBlank {line : List Char} (h : ' ' ∉ line) : definedOn line = (label? line).toList := by
  have hprefix : "define ".toList.isPrefixOf line = false :=
    Bool.eq_false_iff.mpr fun hp => h ((List.isPrefixOf_iff_prefix.mp hp).subset (by decide))
  have hresult : result? line = none := by
    rw [result?.eq_2]
    rintro cs rfl
    exact h List.mem_cons_self
  rw [definedOn, hprefix, if_neg Bool.false_ne_true, hresult, Option.toList_none, List.append_nil]

theorem definedOn_label {label : String} (h : Name.isBare label = true) :
    definedOn (label ++ ":").toList = [Name.bytes label] := by
  have hblank : ' ' ∉ (label ++ ":").toList := by
    rw [String.toList_append, List.mem_append]
    rintro (hmem | hmem)
    · cases Name.isBareChar_of_isBare h _ hmem
    · exact absurd hmem (by decide)
  have hline : (label ++ ":").toList = Name.printed label ++ [':'] := by
    rw [String.toList_append, Name.printed, if_pos h]
    rfl
  have hstop : Stops Name.isBareChar [':'] := stops_cons (by decide) []
  rw [definedOn_of_noBlank hblank, label?, hline, Name.read?_printed label hstop]
  rfl

/-- A register is a local name. -/
theorem Reg.toList_text (r : Reg) : r.text.toList = '%' :: Name.printed ("sym" ++ toString r.index) := by
  have hbare : Name.isBare ("sym" ++ toString r.index) = true := Name.isBare_append_toString (by decide) r.index
  rw [Name.printed, if_pos hbare, Reg.text, String.toList_append, String.toList_append]
  rfl

/-- An instruction with a result starts with the register of the result. -/
theorem Instr.toList_text_of_dst? (f : Function) {i : Instr} {r : Reg} (h : i.dst? = some r) :
    ∃ rest, (i.text f).toList = r.text.toList ++ ' ' :: '=' :: rest := by
  cases i <;> cases h <;> simp only [Instr.text, String.toList_append, List.append_assoc] <;> exact ⟨_, rfl⟩

theorem definedOn_instr (f : Function) (i : Instr) :
    definedOn ("  " ++ i.text f).toList = i.dst?.toList.map fun r => Name.bytes ("sym" ++ toString r.index) := by
  have hblank : ("  " ++ i.text f).toList.head? = some ' ' := by
    rw [String.toList_append]
    rfl
  rw [definedOn_of_blank hblank, String.toList_append]
  cases hdst : i.dst? with
  | some r =>
    obtain ⟨rest, htext⟩ := Instr.toList_text_of_dst? f hdst
    have hstop : Stops Name.isBareChar (' ' :: '=' :: rest) := stops_cons (by decide) _
    rw [htext, r.toList_text]
    change ((match Name.read? (Name.printed ("sym" ++ toString r.index) ++ ' ' :: '=' :: rest) with
      | some (name, ' ' :: '=' :: _) => some name
      | _ => none) : Option (List UInt8)).toList = _
    rw [Name.read?_printed _ hstop]
    rfl
  | none =>
    -- only stores are without a result
    cases i with
    | store value ptr =>
      simp only [Instr.text, String.toList_append, List.append_assoc]
      rfl
    | _ => cases hdst

theorem definedOn_terminator (f : Function) (t : Terminator) : definedOn ("  " ++ t.text f).toList = [] := by
  cases t <;> simp only [Terminator.text, String.toList_append, List.append_assoc] <;> rfl

theorem definedOn_block (f : Function) {b : Block} (h : Name.isBare b.label = true) :
    (b.lines f).flatMap (fun line => definedOn line.toList) =
      (b.label :: (dsts b.instrs).map fun r => "sym" ++ toString r.index).map Name.bytes := by
  have hinstrs : (b.instrs.map ("  " ++ ·.text f)).flatMap (fun line => definedOn line.toList) =
      ((dsts b.instrs).map fun r => "sym" ++ toString r.index).map Name.bytes := by
    induction b.instrs with
    | nil => rfl
    | cons i is ih =>
      rw [List.map_cons, List.flatMap_cons, definedOn_instr, ih, dsts_cons, List.map_append, List.map_append]
      simp only [List.map_map]
      rfl
  rw [Block.lines, List.cons_append, List.flatMap_cons, List.flatMap_append, definedOn_label h, hinstrs,
    List.flatMap_cons, definedOn_terminator, List.flatMap_nil, List.append_nil, List.append_nil]
  rfl

theorem flatMap_intercalate {α β : Type} {sep : List α} {ls : List (List α)} {g : α → List β}
    (h : sep.flatMap g = []) : (sep.intercalate ls).flatMap g = ls.flatMap (·.flatMap g) := by
  induction ls with
  | nil => rfl
  | cons l ls ih =>
    by_cases hls : ls = []
    · subst hls
      simp
    · rw [List.intercalate_cons_of_ne_nil hls, List.flatMap_append, List.flatMap_append, h, List.append_nil, ih,
        List.flatMap_cons]

/-- The names that the text of a printable function defines are those made for its parts. -/
theorem localNames_text {f : Function} (h : f.Printable) : localNames f.text = f.localNames.map Name.bytes := by
  have hblocks : f.blocks.flatMap (fun b => (b.lines f).flatMap fun line => definedOn line.toList) =
      f.madeNames.map Name.bytes := by
    rw [Function.madeNames, List.map_flatMap]
    exact List.flatMap_congr fun b hb => definedOn_block f (h.labels b hb)
  rw [localNames, h.splitOn_text, List.flatMap_append, List.flatMap_map, Function.lines, List.cons_append,
    List.flatMap_cons, List.flatMap_append, flatMap_intercalate rfl, List.flatMap_map, hblocks, definedOn_header,
    Function.localNames, List.map_append]
  have hclose : definedOn "\x7d".toList = [] ∧ definedOn [] = [] := ⟨rfl, rfl⟩
  simp only [List.flatMap_cons, List.flatMap_nil, List.append_nil, hclose]

end SmallLisp.IR

namespace SmallLisp

/-! ## Clashes -/

/-- What tells parameters, blocks and results apart: the first characters of their names. -/
def nameKind (name : String) : List Char := name.toList.take 3

theorem nameKind_parameter (x : String) : nameKind ("arg." ++ x) = ['a', 'r', 'g'] := by
  rw [nameKind, String.toList_append]
  rfl

theorem nameKind_result (n : Nat) : nameKind ("sym" ++ toString n) = ['s', 'y', 'm'] := by
  rw [nameKind, String.toList_append]
  rfl

theorem nameKind_label {label : String} (h : label = "entry" ∨ ∃ n, IsLabel n label) :
    nameKind label ∈ [['e', 'n', 't'], ['i', 'f', '.'], ['s', 'y', 's']] := by
  rcases h with rfl | ⟨n, stem, hstem, rfl⟩
  · decide
  · rw [nameKind, String.toList_append]
    simp only [labelStems, List.mem_cons, List.not_mem_nil, or_false] at hstem
    rcases hstem with rfl | rfl | rfl | rfl | rfl | rfl <;> simp

theorem result_inj {m n : Nat} (h : "sym" ++ toString m = "sym" ++ toString n) : m = n := by
  have hdigits := congrArg String.toList ((String.append_right_inj "sym").mp h)
  rw [Nat.toString_eq_repr, Nat.toString_eq_repr, Nat.toList_repr, Nat.toList_repr] at hdigits
  exact toDigits_inj hdigits

section Functions
variable {abi : IR.Abi} {known : String → Nat → Prop} {site : Site} {f : IR.Function}

/-- The names of blocks, and then the names of results. -/
theorem madeNames_perm (f : IR.Function) : f.madeNames.Perm (f.blocks.map (·.label) ++
    (IR.dsts (f.blocks.flatMap (·.instrs))).map fun r => "sym" ++ toString r.index) := by
  have hdsts : (IR.dsts (f.blocks.flatMap (·.instrs))).map (fun r => "sym" ++ toString r.index) =
      f.blocks.flatMap fun b => (IR.dsts b.instrs).map fun r => "sym" ++ toString r.index := by
    simp only [IR.dsts, List.filterMap_flatMap, List.map_flatMap]
  rw [hdsts]
  exact (List.map_append_flatMap_perm _ _ _).symm

/-- The names of blocks and results are made from different numbers. -/
theorem Compiled.nodup_madeNames (h : Compiled abi known site f) : f.madeNames.Nodup := by
  have hresult : Function.Injective fun r : IR.Reg => "sym" ++ toString r.index := by
    rintro ⟨m⟩ ⟨n⟩ heq
    exact congrArg IR.Reg.mk (result_inj heq)
  rw [(madeNames_perm f).nodup_iff, List.nodup_append]
  refine ⟨(IR.Function.verify_ok_iff.mp h.verify_ok).1, (IR.Function.nodup_dsts h.verify_ok).map hresult, ?_⟩
  rintro _ hlabel _ hresult rfl
  obtain ⟨b, hb, rfl⟩ := List.mem_map.mp hlabel
  obtain ⟨r, -, heq⟩ := List.mem_map.mp hresult
  have hkind := nameKind_label (h.label_eq hb)
  rw [← heq, nameKind_result] at hkind
  exact absurd hkind (by decide)

theorem Compiled.nameKind_madeNames (h : Compiled abi known site f) {name : String} (hname : name ∈ f.madeNames) :
    nameKind name ≠ ['a', 'r', 'g'] := by
  rcases List.mem_append.mp ((madeNames_perm f).mem_iff.mp hname) with hname | hname
  · obtain ⟨b, hb, rfl⟩ := List.mem_map.mp hname
    have hkind := nameKind_label (h.label_eq hb)
    intro heq
    rw [heq] at hkind
    exact absurd hkind (by decide)
  · obtain ⟨r, -, rfl⟩ := List.mem_map.mp hname
    rw [nameKind_result]
    decide

/-- The local names of a compiled function are different if and only if its parameters are. -/
theorem Compiled.nodup_localNames_iff (h : Compiled abi known site f) :
    (IR.localNames f.text).Nodup ↔ f.params.Nodup := by
  have hparams : (f.params.map ("arg." ++ ·)).Nodup ↔ f.params.Nodup :=
    List.nodup_map_iff fun x y heq => (String.append_right_inj "arg.").mp heq
  have hdisjoint : ∀ x ∈ f.params.map ("arg." ++ ·), ∀ y ∈ f.madeNames, x ≠ y := by
    rintro _ hx _ hy rfl
    obtain ⟨x, -, rfl⟩ := List.mem_map.mp hx
    exact h.nameKind_madeNames hy (nameKind_parameter x)
  rw [IR.localNames_text h.printable, List.nodup_map_iff fun _ _ => IR.Name.bytes_inj.mp,
    IR.Function.localNames, List.nodup_append, hparams]
  exact ⟨fun hnodup => hnodup.1, fun hnodup => ⟨hnodup, h.nodup_madeNames, hdisjoint⟩⟩

end Functions

/-- The text of a function of a compiled source defines the names made for its parameters, blocks and
results, and each of them once, unless a parameter is repeated. -/
theorem compileSource_localNames_nodup_iff {source name : String} {host : IR.Abi} {m : IR.Module}
    (h : compileSource source name host = .ok m) {f : IR.Function} (hf : f ∈ m.functions) :
    IR.localNames f.text = f.localNames.map IR.Name.bytes ∧ ((IR.localNames f.text).Nodup ↔ f.params.Nodup) := by
  obtain ⟨program, site, hc⟩ := exists_compiled_of_compileSource h hf
  exact ⟨IR.localNames_text hc.printable, hc.nodup_localNames_iff⟩

/-- Two parameters, four blocks and their results. -/
theorem compileSource_localNames_nodup_iff_branch : ∃ m f,
    compileSource "(def f (x y) (if (< x y) x (+ y 1)))" "m" = .ok m ∧ f ∈ m.functions ∧
    IR.localNames f.text = f.localNames.map IR.Name.bytes ∧ (IR.localNames f.text).Nodup := by
  have hfunctions : (compileSource "(def f (x y) (if (< x y) x (+ y 1)))" "m").toOption.map
      (fun m => m.functions.map (·.params)) = some [["x", "y"]] := by decide +kernel
  obtain ⟨m, hm, hparams⟩ := exists_of_map_toOption hfunctions
  have hmem : ["x", "y"] ∈ m.functions.map (·.params) := hparams ▸ List.mem_cons_self
  obtain ⟨f, hf, hparams⟩ := List.mem_map.mp hmem
  obtain ⟨hnames, hnodup⟩ := compileSource_localNames_nodup_iff hm hf
  refine ⟨m, f, hm, hf, hnames, hnodup.mpr ?_⟩
  rw [hparams]
  decide

/-- A repeated parameter is accepted and printed twice. -/
theorem compileSource_repeated_parameter : ∃ m f, compileSource "(def f (x x) x)" "m" = .ok m ∧
    f ∈ m.functions ∧ f.header = "define i64 @f(i64 %arg.x, i64 %arg.x) \x7b" ∧
    ¬ (IR.localNames f.text).Nodup := by
  have hfunctions : (compileSource "(def f (x x) x)" "m").toOption.map
      (fun m => m.functions.map fun f => (f.header, f.params)) =
      some [("define i64 @f(i64 %arg.x, i64 %arg.x) \x7b", ["x", "x"])] := by decide +kernel
  obtain ⟨m, hm, hfunctions⟩ := exists_of_map_toOption hfunctions
  have hmem : ("define i64 @f(i64 %arg.x, i64 %arg.x) \x7b", ["x", "x"]) ∈
      m.functions.map fun f => (f.header, f.params) := hfunctions ▸ List.mem_cons_self
  obtain ⟨f, hf, heq⟩ := List.mem_map.mp hmem
  obtain ⟨hheader, hparams⟩ := Prod.mk.inj heq
  obtain ⟨program, site, hc⟩ := exists_compiled_of_compileSource hm hf
  refine ⟨m, f, hm, hf, hheader, fun hnodup => ?_⟩
  have hdistinct := hc.nodup_localNames_iff.mp hnodup
  rw [hparams] at hdistinct
  exact absurd hdistinct (by decide)

end SmallLisp
