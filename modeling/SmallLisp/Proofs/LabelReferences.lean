import SmallLisp.Proofs.NameTokens
import SmallLisp.Proofs.PrintedModules

/-! # Labels and references to them

Branches and phis refer to a block by the label of the block, printed as a name, while the label itself is printed as
it is. LLVM has its own rule for what stands before the colon of a label, so the two may mean different things. In an
accepted function they mean the same exactly where the label is what that rule asks for.
-/
namespace SmallLisp.IR

/-! ## Reading -/

def localName? : List Char → Option (List UInt8)
  | '%' :: cs => (Name.read? cs).map (·.1)
  | _ => none

/-- The words that refer to blocks: those after the word `label`, and those before a closing bracket. -/
def blockWords : List (List Char) → List (List Char)
  | [] => []
  | w :: ws =>
    let next := ws.head?.toList
    (if w = "label".toList then next else []) ++
      (if next.any (·.head? == some ']') then [w] else []) ++ blockWords ws

def references (line : List Char) : List (Option (List UInt8)) := (blockWords (line.splitOn ' ')).map localName?

def isSpace (c : Char) : Bool := c == ' ' || c == '\t' || c == '\r' || c == '\n' || c == '\x00'

/-- The name of a label: in quotes before a colon, or the characters of names before a colon. If all of these are
digits the label has a number instead of a name. -/
def labelToken? (cs : List Char) : Option (List UInt8) :=
  if cs.head? = some '"' then
    match Name.read? cs with
    | some (name, ':' :: _) => some name
    | _ => none
  else if (cs.dropWhile Name.isBareChar).head? = some ':' ∧
      (cs.takeWhile Name.isBareChar).all Char.isDigit = false then
    some ((cs.takeWhile Name.isBareChar).flatMap String.utf8EncodeChar)
  else none

def labelName? (line : List Char) : Option (List UInt8) := labelToken? (line.dropWhile isSpace)

/-- A label without quotes: `[-a-zA-Z$._0-9]+`, but not of digits alone. -/
def Name.IsLabelToken (token : List Char) : Prop :=
  (∀ c ∈ token, IsNameLetter c ∨ c.isDigit = true) ∧ ∃ c ∈ token, IsNameLetter c

/-- A name that stands for a block is the name that the line of the block's label has. -/
def Function.Denotes (f : Function) (id : BlockId) (name : Option (List UInt8)) : Prop :=
  ∃ b ∈ f.blocks, b.id = id ∧ name.isSome ∧
    ∃ line, (b.lines f).head? = some line ∧ labelName? line.toList = name

/-- All that branches and phis refer to is what the labels say. -/
def Function.LabelsAgree (f : Function) : Prop :=
  ∀ b ∈ f.blocks,
    List.Forall₂ f.Denotes b.terminator.successors (references ("  " ++ b.terminator.text f).toList) ∧
    ∀ i ∈ b.instrs, i.isPhi = true → List.Forall₂ f.Denotes i.blocks (references ("  " ++ i.text f).toList)

/-! ## Label lines -/

namespace Name

theorem length_utf8EncodeChar_pos (c : Char) : 0 < (String.utf8EncodeChar c).length := by
  rw [String.length_utf8EncodeChar]
  exact c.utf8Size_pos

theorem length_unescape_le (cs : List Char) :
    (unescape cs).length ≤ (cs.flatMap String.utf8EncodeChar).length := by
  fun_induction unescape cs with
  | case1 => exact Nat.le_refl 0
  | case2 cs ih =>
    simp only [List.flatMap_cons, List.length_append]
    omega
  | case3 a b cs hne x hx y hy ih =>
    have ha := length_utf8EncodeChar_pos a
    have hb := length_utf8EncodeChar_pos b
    simp only [List.flatMap_cons, List.length_append, List.length_cons]
    omega
  | case4 a b cs hne hno ih =>
    simp only [List.flatMap_cons, List.length_append] at ih ⊢
    omega
  | case5 c cs h₁ h₂ ih =>
    simp only [List.flatMap_cons, List.length_append]
    omega

/-- A name in quotes is shorter than what it is read from. -/
theorem length_of_read?_quoted {cs rest : List Char} {name : List UInt8} (h : read? ('"' :: cs) = some (name, rest)) :
    name.length + (rest.flatMap String.utf8EncodeChar).length < (cs.flatMap String.utf8EncodeChar).length := by
  rw [read?, if_pos rfl] at h
  split at h
  case h_1 => cases h
  case h_2 quote rest' hdrop =>
    cases h
    have hcs : cs = cs.takeWhile (· != '"') ++ quote :: rest := by
      rw [← hdrop, List.takeWhile_append_dropWhile]
    have hinside := length_unescape_le (cs.takeWhile (· != '"'))
    have hquote := length_utf8EncodeChar_pos quote
    have hlength := congrArg (fun cs => (cs.flatMap String.utf8EncodeChar).length) hcs
    simp only [List.flatMap_append, List.flatMap_cons, List.length_append] at hlength
    omega

theorem IsLabelToken.isBareChar {token : List Char} (h : IsLabelToken token) : ∀ c ∈ token, isBareChar c = true :=
  fun c hc => isBareChar_iff.mpr (h.1 c hc)

theorem not_isNameLetter_of_isDigit {c : Char} (h : c.isDigit = true) : ¬ IsNameLetter c := by
  rintro (halpha | hmem)
  · unfold Char.isAlpha Char.isUpper Char.isLower at halpha
    simp only [Char.isDigit, Bool.and_eq_true, Bool.or_eq_true, decide_eq_true_eq, ge_iff_le,
      UInt32.le_iff_toNat_le] at h halpha
    have hnine : '9'.val.toNat = 57 := rfl
    have hA : 'A'.val.toNat = 65 := rfl
    have ha : 'a'.val.toNat = 97 := rfl
    omega
  · have hnone : ['-', '$', '.', '_'].all (! ·.isDigit) = true := by decide
    rw [(Bool.not_eq_true' _).mp (List.all_eq_true.mp hnone c hmem)] at h
    cases h

theorem isLabelToken_iff {token : List Char} :
    IsLabelToken token ↔ (∀ c ∈ token, isBareChar c = true) ∧ token.all Char.isDigit = false := by
  simp only [IsLabelToken, isBareChar_iff]
  refine and_congr_right fun hall => ?_
  rw [Bool.eq_false_iff, Ne, List.all_eq_true]
  constructor
  · rintro ⟨c, hc, hletter⟩ hdigits
    exact not_isNameLetter_of_isDigit (hdigits c hc) hletter
  · intro hdigits
    obtain ⟨c, hc, hdigit⟩ : ∃ c ∈ token, ¬ c.isDigit = true := by simpa using hdigits
    exact ⟨c, hc, (hall c hc).resolve_right hdigit⟩

theorem bytes_toList_inj {cs ds : List Char} (h : cs.flatMap String.utf8EncodeChar = ds.flatMap String.utf8EncodeChar) :
    cs = ds := by
  have hname : String.ofList cs = String.ofList ds := bytes_inj.mp (by simpa [bytes] using h)
  exact String.ofList_injective hname

end Name

theorem not_isSpace_of_isBareChar {c : Char} (h : Name.isBareChar c = true) : isSpace c = false := by
  rw [Bool.eq_false_iff]
  intro hspace
  simp only [isSpace, Bool.or_eq_true, beq_iff_eq] at hspace
  rcases hspace with (((rfl | rfl) | rfl) | rfl) | rfl <;> cases h

theorem dropWhile_label (label : String) : ∃ cs, (label ++ ":").toList.dropWhile isSpace = cs ++ [':'] ∧
    cs <:+ label.toList := by
  refine ⟨label.toList.dropWhile isSpace, ?_, List.dropWhile_suffix _⟩
  rw [String.toList_append, List.dropWhile_append]
  split
  case isTrue h =>
    rw [List.isEmpty_iff.mp h]
    rfl
  case isFalse => rfl

theorem isLabelToken_of_labelToken? {label : String} {cs : List Char} (hsuffix : cs <:+ label.toList)
    (h : labelToken? (cs ++ [':']) = some (Name.bytes label)) : Name.IsLabelToken label.toList := by
  rw [labelToken?] at h
  split at h
  case isTrue hquote =>
    -- what is between quotes is never as long as the quoted text
    obtain ⟨rest, hcs⟩ := List.head?_eq_some_iff.mp hquote
    rw [hcs] at h
    split at h
    case h_1 name rest' hread =>
      cases h
      have hshort := Name.length_of_read?_quoted hread
      obtain ⟨before, hlabel⟩ := hsuffix
      have hlength := congrArg (fun cs => (cs.flatMap String.utf8EncodeChar).length) hcs
      simp only [Name.bytes, ← hlabel, List.flatMap_append, List.flatMap_cons, List.length_append, List.flatMap_nil,
        List.length_nil] at hshort hlength
      have hcolon : (String.utf8EncodeChar ':').length = 1 := rfl
      have hquote : (String.utf8EncodeChar '"').length = 1 := rfl
      omega
    case h_2 => cases h
  case isFalse =>
    split at h
    case isTrue hrun =>
      have hlabel := Name.bytes_toList_inj (Option.some.inj h)
      rw [← hlabel, Name.isLabelToken_iff]
      exact ⟨List.all_eq_true.mp List.all_takeWhile, hrun.2⟩
    case isFalse => cases h

/-- The line of a label reads as the label exactly where the label needs no quotes there. -/
theorem labelName?_label_iff (label : String) :
    labelName? (label ++ ":").toList = some (Name.bytes label) ↔ Name.IsLabelToken label.toList := by
  constructor
  · intro h
    obtain ⟨cs, hline, hsuffix⟩ := dropWhile_label label
    rw [labelName?, hline] at h
    exact isLabelToken_of_labelToken? hsuffix h
  · intro h
    obtain ⟨hall, hdigits⟩ := Name.isLabelToken_iff.mp h
    obtain ⟨c, hc, hletter⟩ := h.2
    obtain ⟨d, ds, hlabel⟩ := List.exists_cons_of_ne_nil (List.ne_nil_of_mem hc)
    have hd : Name.isBareChar d = true := hall d (hlabel ▸ List.mem_cons_self)
    have hspace : (label ++ ":").toList.dropWhile isSpace = label.toList ++ [':'] := by
      rw [String.toList_append, hlabel, List.cons_append, List.dropWhile_cons_of_neg]
      · rfl
      · rw [not_isSpace_of_isBareChar hd]
        exact Bool.false_ne_true
    have hquote : (label.toList ++ [':']).head? ≠ some '"' := by
      rw [hlabel]
      rintro ⟨⟩
      cases hd
    have hstop : Stops Name.isBareChar [':'] := stops_cons (by decide) []
    rw [labelName?, hspace, labelToken?, if_neg hquote, dropWhile_run hall hstop, takeWhile_run hall hstop,
      if_pos ⟨rfl, hdigits⟩]
    rfl

/-! ## References in lines -/

namespace Function
variable (f : Function)

def refName (id : BlockId) : String := (f.label? id).getD ("bb" ++ toString id.index)

theorem toList_labelRef (id : BlockId) : (f.labelRef id).toList = '%' :: Name.printed (f.refName id) := by
  rw [labelRef, refName]
  cases f.label? id with
  | some label => exact Name.toList_text '%' label
  | none =>
    have hbare : Name.isBare ("bb" ++ toString id.index) = true := Name.isBare_append_toString (by decide) id.index
    rw [Option.getD_none, Name.printed, if_pos hbare, String.toList_append, String.toList_append]
    rfl

end Function

theorem blank_not_mem_printed (name : String) : ' ' ∉ Name.printed name :=
  Name.not_mem_printed (by decide) (by decide) name

/-- A word that stands for a value or a block, and not for itself. -/
structure IsWord (w : List Char) : Prop where
  noBlank : ' ' ∉ w
  notBracket : w.head? ≠ some ']'
  notLabel : w ≠ "label".toList

theorem isWord_of_head {w : List Char} {c : Char} (h : ' ' ∉ w) (hc : w.head? = some c)
    (hne : c ≠ ']' ∧ c ≠ 'l') : IsWord w where
  noBlank := h
  notBracket he := hne.1 (Option.some.inj (hc.symm.trans he))
  notLabel := by
    rintro rfl
    exact hne.2 (Option.some.inj hc).symm

theorem isWord_local (name : String) : IsWord ('%' :: Name.printed name) := by
  refine isWord_of_head (fun h => ?_) rfl (by decide)
  exact blank_not_mem_printed name ((List.mem_cons.mp h).resolve_left (by decide))

theorem isWord_local_comma (name : String) : IsWord ('%' :: (Name.printed name ++ [','])) := by
  refine isWord_of_head (fun h => ?_) rfl (by decide)
  rcases List.mem_append.mp ((List.mem_cons.mp h).resolve_left (by decide)) with h | h
  · exact blank_not_mem_printed name h
  · exact absurd h (by decide)

theorem number_of_mem_int64 (v : Int64) : ∀ d ∈ (toString v).toList, d = '-' ∨ d.isDigit = true := by
  rw [toList_int64]
  refine List.forall_mem_append.mpr ⟨?_, fun d hd => .inr (Nat.isDigit_of_mem_toDigits (by decide) (by decide) hd)⟩
  split
  · exact List.forall_mem_singleton.mpr (.inl rfl)
  · exact nofun

/-- An operand, and one with a comma behind it. -/
theorem isWord_operand (o : Operand) : IsWord o.text.toList ∧ IsWord (o.text.toList ++ [',']) := by
  cases o with
  | reg r =>
    change IsWord r.text.toList ∧ IsWord (r.text.toList ++ [','])
    rw [r.toList_text]
    exact ⟨isWord_local _, isWord_local_comma _⟩
  | arg param =>
    change IsWord (paramText param).toList ∧ IsWord ((paramText param).toList ++ [','])
    rw [paramText, Name.toList_text]
    exact ⟨isWord_local _, isWord_local_comma _⟩
  | const v =>
    have hnumber := number_of_mem_int64 v
    obtain ⟨c, cs, hv⟩ := List.exists_cons_of_ne_nil (int64_ne_nil v)
    change IsWord (toString v).toList ∧ IsWord ((toString v).toList ++ [','])
    rw [hv] at hnumber ⊢
    have hblank : ' ' ∉ c :: cs := fun h => absurd (hnumber _ h) (by decide)
    have hfirst : c ≠ ']' ∧ c ≠ 'l' := by
      have hc := hnumber c List.mem_cons_self
      constructor <;> rintro rfl <;> exact absurd hc (by decide)
    refine ⟨isWord_of_head hblank rfl hfirst, isWord_of_head (fun h => ?_) rfl hfirst⟩
    exact (List.mem_append.mp h).elim hblank (by decide)

theorem localName?_word (name : String) : localName? ('%' :: Name.printed name) = some (Name.bytes name) := by
  have hnil : Stops Name.isBareChar [] := nofun
  have hread := Name.read?_printed name hnil
  rw [List.append_nil] at hread
  rw [localName?, hread]
  rfl

theorem localName?_comma (name : String) :
    localName? ('%' :: (Name.printed name ++ [','])) = some (Name.bytes name) := by
  rw [localName?, Name.read?_printed name (stops_cons (by decide) [])]
  rfl

theorem references_eq {line : List Char} {ws : List (List Char)} (hline : line = [' '].intercalate ws) (hne : ws ≠ [])
    (h : ∀ w ∈ ws, ' ' ∉ w) : references line = (blockWords ws).map localName? := by
  rw [references, hline, List.splitOn_intercalate ' ' h hne]

section Words
variable {v w u : List Char} {ws : List (List Char)}

theorem blockWords_br (hw : IsWord w) : blockWords [[], [], "br".toList, "label".toList, w] = [w] := by
  simp [blockWords, hw.notBracket]

/-- What stands before the values of a phi refers to no block. -/
theorem blockWords_phi (hw : IsWord w) (h : u.head? ≠ some ']') :
    blockWords ([[], [], w, "=".toList, "phi".toList, "i64".toList] ++ u :: ws) = blockWords (u :: ws) := by
  have hlabel := hw.notLabel
  simp_all [blockWords, hw.notBracket]

theorem blockWords_condBr (hv : IsWord v) (hw : IsWord w) (hu : IsWord u) :
    blockWords [[], [], "br".toList, "i1".toList, v, "label".toList, w, "label".toList, u] = [w, u] := by
  have hlabel := hv.notLabel
  have hlabel' := hw.notLabel
  simp_all [blockWords, hv.notBracket, hw.notBracket, hu.notBracket]

/-- A value in brackets with the block that it comes from. -/
theorem blockWords_entry (hv : IsWord v) (hw : IsWord w) (last : List Char) :
    blockWords (['['] :: v :: w :: (']' :: last) :: ws) = w :: blockWords ((']' :: last) :: ws) := by
  have hlabel := hv.notLabel
  have hlabel' := hw.notLabel
  simp_all [blockWords, hv.notBracket, hw.notBracket]

theorem blockWords_bracket (last : List Char) :
    blockWords ((']' :: last) :: ['['] :: ws) = blockWords (['['] :: ws) := by
  simp [blockWords]

end Words

/-- A branch refers to the blocks that it leads to, in order. -/
theorem references_terminator (f : Function) (t : Terminator) :
    references ("  " ++ t.text f).toList = t.successors.map fun id => some (Name.bytes (f.refName id)) := by
  cases t with
  | ret v =>
    obtain ⟨hv, -⟩ := isWord_operand v
    have hline : ("  " ++ (Terminator.ret v).text f).toList =
        [' '].intercalate [[], [], "ret".toList, "i64".toList, v.text.toList] := by
      simp [Terminator.text, String.toList_append, List.intercalate]
    rw [references_eq hline (by simp) (by simp [hv.noBlank])]
    simp [blockWords, hv.notBracket, Terminator.successors]
  | br dest =>
    have hdest := isWord_local (f.refName dest)
    have hline : ("  " ++ (Terminator.br dest).text f).toList =
        [' '].intercalate [[], [], "br".toList, "label".toList, '%' :: Name.printed (f.refName dest)] := by
      simp [Terminator.text, String.toList_append, List.intercalate, f.toList_labelRef]
    rw [references_eq hline (by simp) (by simpa using hdest.noBlank), blockWords_br hdest, List.map_singleton,
      localName?_word]
    rfl
  | condBr c yes no =>
    obtain ⟨-, hc⟩ := isWord_operand (.reg c)
    have hyes := isWord_local_comma (f.refName yes)
    have hno := isWord_local (f.refName no)
    have hline : ("  " ++ (Terminator.condBr c yes no).text f).toList =
        [' '].intercalate [[], [], "br".toList, "i1".toList, (Operand.reg c).text.toList ++ [','], "label".toList,
          '%' :: (Name.printed (f.refName yes) ++ [',']), "label".toList, '%' :: Name.printed (f.refName no)] := by
      simp [Terminator.text, Operand.text, String.toList_append, List.intercalate, f.toList_labelRef]
    have hblank : ∀ w ∈ [[], [], "br".toList, "i1".toList, (Operand.reg c).text.toList ++ [','], "label".toList,
        '%' :: (Name.printed (f.refName yes) ++ [',']), "label".toList,
        '%' :: Name.printed (f.refName no)], ' ' ∉ w := by
      simp only [List.forall_mem_cons]
      exact ⟨by decide, by decide, by decide, by decide, hc.noBlank, by decide, hyes.noBlank, by decide, hno.noBlank,
        List.forall_mem_nil _⟩
    rw [references_eq hline (by simp) hblank, blockWords_condBr hc hyes hno, List.map_cons, List.map_singleton,
      localName?_word, localName?_comma]
    rfl

def entryText (f : Function) (entry : Operand × BlockId) : List Char :=
  "[ ".toList ++ (entry.1.text.toList ++ (", ".toList ++ ((f.labelRef entry.2).toList ++ " ]".toList)))

def entryWords (f : Function) (entry : Operand × BlockId) (last : List Char) : List (List Char) :=
  [['['], entry.1.text.toList ++ [','], '%' :: Name.printed (f.refName entry.2), ']' :: last]

theorem splitOn_entry (f : Function) (entry : Operand × BlockId) {last : List Char} (h : ' ' ∉ last) :
    (entryText f entry ++ last).splitOn ' ' = entryWords f entry last := by
  obtain ⟨-, hv⟩ := isWord_operand entry.1
  have hw := isWord_local (f.refName entry.2)
  have hline : entryText f entry ++ last = [' '].intercalate (entryWords f entry last) := by
    simp [entryText, entryWords, List.intercalate, f.toList_labelRef]
  have hblank : ∀ w ∈ entryWords f entry last, ' ' ∉ w := by
    simp only [entryWords, List.forall_mem_cons]
    exact ⟨by decide, hv.noBlank, hw.noBlank, by simpa using h, nofun⟩
  rw [hline, List.splitOn_intercalate ' ' hblank (List.cons_ne_nil _ _)]

/-- The words of values and blocks start with a bracket. -/
theorem exists_words_of_entries (f : Function) (entry : Operand × BlockId) (entries : List (Operand × BlockId)) :
    ∃ ws, (", ".toList.intercalate ((entry :: entries).map (entryText f))).splitOn ' ' = ['['] :: ws ∧
      blockWords (['['] :: ws) = (entry :: entries).map fun entry => '%' :: Name.printed (f.refName entry.2) := by
  obtain ⟨-, hv⟩ := isWord_operand entry.1
  have hw := isWord_local (f.refName entry.2)
  induction entries generalizing entry with
  | nil =>
    have hlast : (entryText f entry).splitOn ' ' = entryWords f entry [] := by
      rw [← splitOn_entry f entry List.not_mem_nil, List.append_nil]
    refine ⟨_, by rw [List.map_singleton, List.intercalate_singleton, hlast, entryWords], ?_⟩
    rw [blockWords_entry hv hw]
    rfl
  | cons next entries ih =>
    obtain ⟨ws, hsplit, hblocks⟩ := ih next (isWord_operand next.1).2 (isWord_local _)
    have hline : ", ".toList.intercalate ((entry :: next :: entries).map (entryText f)) =
        (entryText f entry ++ [',']) ++ ' ' :: ", ".toList.intercalate ((next :: entries).map (entryText f)) := by
      rw [List.map_cons, List.intercalate_cons_of_ne_nil (by simp)]
      simp
    refine ⟨(entry.1.text.toList ++ [',']) :: ('%' :: Name.printed (f.refName entry.2)) :: [']', ','] :: ['['] :: ws,
      ?_, ?_⟩
    · rw [hline, List.splitOn_append_cons_self, splitOn_entry f entry (by decide), hsplit]
      rfl
    · rw [blockWords_entry hv hw, blockWords_bracket, hblocks]
      rfl

/-- A phi refers to the blocks that its values come from, in order. -/
theorem references_phi (f : Function) {i : Instr} (h : i.isPhi = true) :
    references ("  " ++ i.text f).toList = i.blocks.map fun id => some (Name.bytes (f.refName id)) := by
  cases i with
  | phi dst incoming =>
    have hdst : IsWord dst.text.toList := (isWord_operand (.reg dst)).1
    have hstart : ("  ".toList ++ (dst.text.toList ++ " = phi i64".toList)).splitOn ' ' =
        [[], [], dst.text.toList, "=".toList, "phi".toList, "i64".toList] := by
      have hwords : "  ".toList ++ (dst.text.toList ++ " = phi i64".toList) =
          [' '].intercalate [[], [], dst.text.toList, "=".toList, "phi".toList, "i64".toList] := by
        simp [List.intercalate]
      have hblank : ∀ w ∈ [[], [], dst.text.toList, "=".toList, "phi".toList, "i64".toList], ' ' ∉ w := by
        simp only [List.forall_mem_cons]
        exact ⟨by decide, by decide, hdst.noBlank, by decide, by decide, by decide, List.forall_mem_nil _⟩
      rw [hwords, List.splitOn_intercalate ' ' hblank (List.cons_ne_nil _ _)]
    have hline : ("  " ++ (Instr.phi dst incoming).text f).toList =
        ("  ".toList ++ (dst.text.toList ++ " = phi i64".toList)) ++ ' ' ::
          ", ".toList.intercalate (incoming.map (entryText f)) := by
      have hrest : (Instr.phi dst incoming).rest f = ", ".toList.intercalate (incoming.map (entryText f)) := rfl
      rw [String.toList_append, Instr.toList_text, hrest]
      simp [Instr.dst?, Instr.opcode, Opcode.text]
    rw [references, hline, List.splitOn_append_cons_self, hstart]
    cases incoming with
    | nil =>
      have hnil : ([] : List Char).head? ≠ some ']' := by decide
      rw [List.map_nil, List.intercalate_nil, List.splitOn_nil, blockWords_phi hdst hnil]
      rfl
    | cons entry entries =>
      obtain ⟨ws, hsplit, hblocks⟩ := exists_words_of_entries f entry entries
      rw [hsplit, blockWords_phi hdst (by decide), hblocks, List.map_map, Instr.blocks, List.map_map]
      exact List.map_congr_left fun entry _ => localName?_word _
  | _ => cases h

/-! ## Accepted functions -/

namespace Function
variable {f : Function}

theorem refName_of_mem (hids : (f.blocks.map (·.id)).Nodup) {b : Block} (hb : b ∈ f.blocks) :
    f.refName b.id = b.label := by
  rw [refName, label?, block?, find?_of_nodup hids hb]
  rfl

/-- A reference to a block denotes it exactly where its label needs no quotes. -/
theorem denotes_iff (hids : (f.blocks.map (·.id)).Nodup) {b : Block} (hb : b ∈ f.blocks) :
    f.Denotes b.id (some (Name.bytes (f.refName b.id))) ↔ Name.IsLabelToken b.label.toList := by
  rw [refName_of_mem hids hb]
  constructor
  · rintro ⟨d, hd, hid, -, line, hline, hname⟩
    obtain rfl : d = b := List.inj_on_of_nodup_map hids hd hb hid
    cases hline
    exact (labelName?_label_iff _).mp hname
  · intro h
    exact ⟨b, hb, rfl, rfl, b.label ++ ":", rfl, (labelName?_label_iff _).mpr h⟩

theorem forall₂_denotes_iff {ids : List BlockId} :
    List.Forall₂ f.Denotes ids (ids.map fun id => some (Name.bytes (f.refName id))) ↔
      ∀ id ∈ ids, f.Denotes id (some (Name.bytes (f.refName id))) := by
  rw [List.forall₂_map_right_iff, List.forall₂_same]

/-- In a function that keeps the rules and has different identities for its blocks, references agree with labels
exactly if each block that is referred to has a label that needs no quotes. -/
theorem Valid.labelsAgree_iff (h : f.Valid) (hids : (f.blocks.map (·.id)).Nodup) :
    f.LabelsAgree ↔ ∀ b ∈ f.blocks, f.Mentions b.id → Name.IsLabelToken b.label.toList := by
  have hagree : f.LabelsAgree ↔ ∀ id, f.Mentions id → f.Denotes id (some (Name.bytes (f.refName id))) := by
    constructor
    · rintro hall id ⟨b, hb, hid | ⟨dst, incoming, hphi, hid⟩⟩
      · have hbranch := (hall b hb).1
        rw [references_terminator, forall₂_denotes_iff] at hbranch
        exact hbranch id hid
      · have hentries := (hall b hb).2 _ hphi rfl
        rw [references_phi f rfl, forall₂_denotes_iff] at hentries
        exact hentries id hid
    · intro hall b hb
      rw [references_terminator, forall₂_denotes_iff]
      refine ⟨fun id hid => hall id ⟨b, hb, .inl hid⟩, fun i hi hphi => ?_⟩
      rw [references_phi f hphi, forall₂_denotes_iff]
      exact fun id hid => hall id ⟨b, hb, .inr (joins_of_mem_blocks hi hid)⟩
  rw [hagree]
  constructor
  · exact fun hall b hb hid => (denotes_iff hids hb).mp (hall b.id hid)
  · intro hall id hid
    obtain ⟨b, hb, rfl⟩ := h.exist id hid
    exact (denotes_iff hids hb).mpr (hall b hb hid)

/-- References in an accepted function agree with labels exactly if each block that is referred to has a label that
LLVM reads without quotes: characters of names, and not digits alone. -/
theorem labelsAgree_iff_of_verify {f : Function} (h : f.verify = .ok ()) (hids : (f.blocks.map (·.id)).Nodup) :
    f.LabelsAgree ↔ ∀ b ∈ f.blocks, f.Mentions b.id → Name.IsLabelToken b.label.toList :=
  (valid_of_verify h).labelsAgree_iff hids

def branchTo (first second : String) : Function where
  name := "f"
  params := []
  blocks := [⟨⟨0⟩, first, [], .br ⟨1⟩⟩, ⟨⟨1⟩, second, [], .ret (.const 0)⟩]

theorem eq_of_mentions_branchTo {first second : String} {b : Block} (hb : b ∈ (branchTo first second).blocks)
    (h : (branchTo first second).Mentions b.id) : b = ⟨⟨1⟩, second, [], .ret (.const 0)⟩ := by
  simp only [branchTo, Mentions, Block.Joins, List.mem_cons, List.not_mem_nil, or_false] at hb h
  rcases hb with rfl | rfl
  · obtain ⟨d, rfl | rfl, hid | ⟨_, _, hphi, -⟩⟩ := h
    · simp [Terminator.successors] at hid
    · cases hphi
    · cases hid
    · cases hphi
  · rfl

/-- A digit may come first, and a block that nothing refers to may have any label. -/
theorem labelsAgree_iff_of_verify_branchTo : (branchTo "a b" "9x").verify = .ok () ∧
    ((branchTo "a b" "9x").blocks.map (·.id)).Nodup ∧ (branchTo "a b" "9x").LabelsAgree := by
  have hverify : (branchTo "a b" "9x").verify = .ok () := by rfl
  have hids : ((branchTo "a b" "9x").blocks.map (·.id)).Nodup := by decide
  refine ⟨hverify, hids, (labelsAgree_iff_of_verify hverify hids).mpr fun b hb hmentions => ?_⟩
  obtain rfl := eq_of_mentions_branchTo hb hmentions
  exact Name.isLabelToken_iff.mpr ⟨List.all_eq_true.mp (by decide), by decide⟩

/-- A label with a blank is accepted, and references to it have quotes that the label has not. -/
theorem not_labelsAgree_branchTo : (branchTo "entry" "a b").verify = .ok () ∧
    ((branchTo "entry" "a b").blocks.map (·.id)).Nodup ∧
    (branchTo "entry" "a b").labelRef ⟨1⟩ = "%\"a\\20b\"" ∧ labelName? "a b:".toList = none ∧
    ¬ (branchTo "entry" "a b").LabelsAgree := by
  have hverify : (branchTo "entry" "a b").verify = .ok () := by rfl
  have hids : ((branchTo "entry" "a b").blocks.map (·.id)).Nodup := by decide
  refine ⟨hverify, hids, by rfl, by rfl, fun hagree => ?_⟩
  have hlabels := ((valid_of_verify hverify).labelsAgree_iff hids).mp hagree
  have htoken := hlabels ⟨⟨1⟩, "a b", [], .ret (.const 0)⟩ (List.mem_cons_of_mem _ List.mem_cons_self)
    ⟨_, List.mem_cons_self, .inl List.mem_cons_self⟩
  exact absurd (htoken.isBareChar ' ' (by decide)) (by decide)

end Function
end SmallLisp.IR

namespace SmallLisp

/-- In compiled functions references agree with labels. -/
theorem Compiled.labelsAgree {abi : IR.Abi} {known : String → Nat → Prop} {site : Site} {f : IR.Function}
    (h : Compiled abi known site f) : f.LabelsAgree := by
  refine (h.legible.valid.labelsAgree_iff h.legible.distinct).mpr fun b hb _ => ?_
  obtain ⟨c, cs, hlabel, hdigit, hc, hcs⟩ := IR.Name.isBare_iff.mp (h.printable.labels b hb)
  rw [hlabel, IR.Name.isLabelToken_iff]
  exact ⟨List.forall_mem_cons.mpr ⟨hc, hcs⟩, by simp [hdigit]⟩

end SmallLisp
