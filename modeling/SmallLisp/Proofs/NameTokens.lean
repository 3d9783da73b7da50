import SmallLisp.Proofs.NameReading

/-! # Printed names are single tokens

LLVM has two forms of names, with and without quotes. What is printed for a name after its sigil is one token of one
of these forms, whatever characters the name has, and the whole of the token reads as the UTF-8 form of the name.
-/
namespace SmallLisp.IR.Name

def IsNameLetter (c : Char) : Prop := c.isAlpha = true ∨ c ∈ ['-', '$', '.', '_']

/-- A name without quotes: `[-a-zA-Z$._][-a-zA-Z$._0-9]*`. -/
def IsBareToken (token : List Char) : Prop :=
  ∃ c cs, token = c :: cs ∧ IsNameLetter c ∧ ∀ d ∈ cs, IsNameLetter d ∨ d.isDigit = true

def IsQuotedToken (token : List Char) : Prop :=
  ∃ inside, token = '"' :: inside ++ ['"'] ∧ ∀ c ∈ inside, ' ' ≤ c ∧ c ≤ '~' ∧ c ≠ '"'

theorem isBareChar_iff {c : Char} : isBareChar c = true ↔ IsNameLetter c ∨ c.isDigit = true := by
  simp only [isBareChar, Char.isAlphanum, Bool.or_eq_true, beq_iff_eq, IsNameLetter, List.mem_cons, List.not_mem_nil,
    or_false]
  grind

theorem isBareToken_of_isBare {name : String} (h : isBare name = true) : IsBareToken name.toList := by
  obtain ⟨c, cs, hname, hdigit, hc, hcs⟩ := isBare_iff.mp h
  have hfirst : IsNameLetter c := (isBareChar_iff.mp hc).resolve_right (by simp [hdigit])
  exact ⟨c, cs, hname, hfirst, fun d hd => isBareChar_iff.mp (hcs d hd)⟩

theorem isQuotedToken_escaped (cs : List Char) : IsQuotedToken ('"' :: cs.flatMap escapeChar ++ ['"']) := by
  refine ⟨_, rfl, fun c hc => ?_⟩
  obtain ⟨hlow, hhigh, hquote⟩ := isInside_of_mem_escaped hc
  exact ⟨Char.le_trans (by decide) hlow, hhigh, hquote⟩

theorem isToken_printed (name : String) : IsBareToken (printed name) ∨ IsQuotedToken (printed name) := by
  rw [printed]
  split
  case isTrue h => exact .inl (isBareToken_of_isBare h)
  case isFalse => exact .inr (isQuotedToken_escaped _)

theorem toUTF8_eq_bytes (name : String) : name.toUTF8.data.toList = bytes name := by
  have hutf8 : name.toByteArray = name.toList.utf8Encode := by
    rw [← String.toByteArray_ofList, String.ofList_toList]
  rw [String.toUTF8_eq_toByteArray, hutf8, List.utf8Encode, List.data_toByteArray, bytes]

/-- A name is printed as its sigil and one token, which reads as the name and as nothing more; other names, and other
sigils, are printed otherwise. -/
theorem text_token (sigil : Char) (name : String) :
    ∃ token, (text sigil name).toList = sigil :: token ∧ (IsBareToken token ∨ IsQuotedToken token) ∧
      read? token = some (name.toUTF8.data.toList, []) ∧
      ∀ sigil' name', text sigil name = text sigil' name' ↔ sigil = sigil' ∧ name = name' := by
  have hnil : Stops isBareChar [] := nofun
  have hread := read?_printed name hnil
  rw [List.append_nil, ← toUTF8_eq_bytes] at hread
  refine ⟨printed name, toList_text sigil name, isToken_printed name, hread, fun sigil' name' => ?_⟩
  rw [← String.toList_inj, toList_text, toList_text, List.cons.injEq, printed_inj]

end SmallLisp.IR.Name
