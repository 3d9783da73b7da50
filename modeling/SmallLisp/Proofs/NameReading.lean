import SmallLisp.IR.Name
import SmallLisp.Text.Pieces

/-! # Printed names are read back

LLVM reads a name after its sigil, either as far as the characters of bare identifiers go, or between
quotes, where a backslash and two hexadecimal digits stand for one byte. What is printed for a name reads as
the bytes of the name, whatever stands after it, and so different names are printed differently.
-/
namespace SmallLisp.IR.Name

def bytes (name : String) : List UInt8 := name.toList.flatMap String.utf8EncodeChar

theorem bytes_inj {name name' : String} : bytes name = bytes name' ↔ name = name' := by
  refine ⟨fun h => ?_, congrArg bytes⟩
  have hutf8 : name.toList.utf8Encode = name'.toList.utf8Encode := congrArg List.toByteArray h
  rw [← String.toByteArray_ofList, ← String.toByteArray_ofList, String.ofList_toList, String.ofList_toList] at hutf8
  exact String.toByteArray_inj.mp hutf8

/-! ## Between quotes -/

def hexValue? (c : Char) : Option Nat :=
  if '0' ≤ c ∧ c ≤ '9' then some (c.toNat - '0'.toNat)
  else if 'A' ≤ c ∧ c ≤ 'F' then some (c.toNat - 'A'.toNat + 10)
  else if 'a' ≤ c ∧ c ≤ 'f' then some (c.toNat - 'a'.toNat + 10)
  else none

/-- The bytes that characters between quotes stand for. Two backslashes are one, and a backslash before
anything but two digits stands for itself. -/
def unescape : List Char → List UInt8
  | [] => []
  | '\\' :: '\\' :: cs => String.utf8EncodeChar '\\' ++ unescape cs
  | '\\' :: a :: b :: cs =>
    match hexValue? a, hexValue? b with
    | some x, some y => .ofNat (16 * x + y) :: unescape cs
    | _, _ => String.utf8EncodeChar '\\' ++ unescape (a :: b :: cs)
  | c :: cs => String.utf8EncodeChar c ++ unescape cs

theorem hexValue?_hexDigit : ∀ n < 16, hexValue? (hexDigit n) = some n ∧ hexDigit n ≠ '\\' := by decide

theorem unescape_escapeByte (b : UInt8) (cs : List Char) : unescape (escapeByte b ++ cs) = b :: unescape cs := by
  have hb : b.toNat < 256 := b.toNat_lt
  obtain ⟨hhigh, hne⟩ := hexValue?_hexDigit (b.toNat / 16) (by omega)
  obtain ⟨hlow, -⟩ := hexValue?_hexDigit (b.toNat % 16) (by omega)
  have hsum : 16 * (b.toNat / 16) + b.toNat % 16 = b.toNat := by omega
  change unescape ('\\' :: hexDigit (b.toNat / 16) :: hexDigit (b.toNat % 16) :: cs) = _
  rw [unescape.eq_3 _ _ _ hne, hhigh, hlow]
  simp only [hsum, UInt8.ofNat_toNat]

theorem unescape_cons_of_ne {c : Char} (h : c ≠ '\\') (cs : List Char) :
    unescape (c :: cs) = String.utf8EncodeChar c ++ unescape cs := by
  rw [unescape.eq_4]
  · rintro _ rfl
    exact absurd rfl h
  · rintro _ _ _ rfl
    exact absurd rfl h

/-- The characters printed for one character read as its bytes. -/
theorem unescape_escapeChar (c : Char) (cs : List Char) :
    unescape (escapeChar c ++ cs) = String.utf8EncodeChar c ++ unescape cs := by
  rw [escapeChar]
  split
  case isTrue h => exact unescape_cons_of_ne (by simp_all [isPlainChar]) cs
  case isFalse =>
    generalize String.utf8EncodeChar c = bs
    induction bs with
    | nil => rfl
    | cons b bs ih => rw [List.flatMap_cons, List.append_assoc, unescape_escapeByte, ih, List.cons_append]

theorem unescape_escaped (cs : List Char) :
    unescape (cs.flatMap escapeChar) = cs.flatMap String.utf8EncodeChar := by
  induction cs with
  | nil => rfl
  | cons c cs ih => rw [List.flatMap_cons, unescape_escapeChar, ih, List.flatMap_cons]

def IsInside (c : Char) : Prop := '!' ≤ c ∧ c ≤ '~' ∧ c ≠ '"'

theorem isInside_hexDigit : ∀ n < 16, IsInside (hexDigit n) := by
  unfold IsInside
  decide

theorem isInside_of_mem_escapeChar {c d : Char} (hd : d ∈ escapeChar c) : IsInside d := by
  rw [escapeChar] at hd
  split at hd
  case isTrue h =>
    rw [List.mem_singleton.mp hd]
    simp only [isPlainChar, Bool.and_eq_true, decide_eq_true_eq, bne_iff_ne] at h
    exact ⟨h.1.1.1, h.1.1.2, h.1.2⟩
  case isFalse =>
    obtain ⟨b, -, hd⟩ := List.mem_flatMap.mp hd
    have hb : b.toNat < 256 := b.toNat_lt
    simp only [escapeByte, List.mem_cons, List.not_mem_nil, or_false] at hd
    rcases hd with rfl | rfl | rfl
    · exact ⟨by decide, by decide, by decide⟩
    · exact isInside_hexDigit _ (by omega)
    · exact isInside_hexDigit _ (by omega)

theorem isInside_of_mem_escaped {cs : List Char} {d : Char} (hd : d ∈ cs.flatMap escapeChar) : IsInside d := by
  obtain ⟨c, -, hd⟩ := List.mem_flatMap.mp hd
  exact isInside_of_mem_escapeChar hd

/-! ## Bare identifiers -/

theorem isBare_iff {name : String} : isBare name = true ↔
    ∃ c cs, name.toList = c :: cs ∧ c.isDigit = false ∧ isBareChar c = true ∧
      ∀ d ∈ cs, isBareChar d = true := by
  unfold isBare
  split
  case h_1 h => simp [h]
  case h_2 c cs h => simp [h, and_assoc]

theorem isBareChar_of_isBare {name : String} (h : isBare name = true) : ∀ d ∈ name.toList, isBareChar d = true := by
  obtain ⟨c, cs, hname, -, hc, hcs⟩ := isBare_iff.mp h
  rw [hname]
  exact List.forall_mem_cons.mpr ⟨hc, hcs⟩

/-- A bare identifier goes on with digits. -/
theorem isBare_append_toString {name : String} (h : isBare name = true) (n : Nat) :
    isBare (name ++ toString n) = true := by
  obtain ⟨c, cs, hname, hdigit, hc, hcs⟩ := isBare_iff.mp h
  refine isBare_iff.mpr ⟨c, cs ++ Nat.toDigits 10 n, ?_, hdigit, hc, List.forall_mem_append.mpr ⟨hcs, ?_⟩⟩
  · rw [String.toList_append, hname, Nat.toString_eq_repr, Nat.toList_repr, List.cons_append]
  · intro d hd
    have hd : d.isDigit = true := Nat.isDigit_of_mem_toDigits (by decide) (by decide) hd
    simp [isBareChar, Char.isAlphanum, hd]

/-! ## Names -/

def printed (name : String) : List Char :=
  if isBare name then name.toList else '"' :: name.toList.flatMap escapeChar ++ ['"']

theorem toList_text (sigil : Char) (name : String) : (text sigil name).toList = sigil :: printed name := by
  rw [text, String.toList_append, printed]
  split <;> simp [quoted]

/-- The bytes of a name at the start of a text, and what is left of the text. -/
def read? : List Char → Option (List UInt8 × List Char)
  | [] => none
  | c :: cs =>
    if c = '"' then
      match cs.dropWhile (· != '"') with
      | [] => none
      | _ :: rest => some (unescape (cs.takeWhile (· != '"')), rest)
    else if isBareChar c && !c.isDigit then
      some ((c :: cs.takeWhile isBareChar).flatMap String.utf8EncodeChar, cs.dropWhile isBareChar)
    else none

theorem length_of_read? {cs rest : List Char} {name : List UInt8} (h : read? cs = some (name, rest)) :
    rest.length < cs.length := by
  cases cs with
  | nil => cases h
  | cons c cs =>
    rw [read?] at h
    split at h
    · have hle : (cs.dropWhile (· != '"')).length ≤ cs.length := (List.dropWhile_sublist _).length_le
      split at h
      · cases h
      case h_2 heq =>
        cases h
        rw [heq] at hle
        simp only [List.length_cons] at hle ⊢
        omega
    · split at h
      · cases h
        have hle : (cs.dropWhile isBareChar).length ≤ cs.length := (List.dropWhile_sublist _).length_le
        simp only [List.length_cons]
        omega
      · cases h

/-- A printed name reads as its bytes, where what follows does not go on with a character of a name. -/
theorem read?_printed (name : String) {rest : List Char} (h : Stops isBareChar rest) :
    read? (printed name ++ rest) = some (bytes name, rest) := by
  rw [printed]
  split
  case isTrue hbare =>
    obtain ⟨c, cs, hcs, hdigit, hc, hall⟩ := isBare_iff.mp hbare
    have hquote : c ≠ '"' := by
      rintro rfl
      cases hc
    rw [bytes, hcs, List.cons_append, read?, if_neg hquote, if_pos (by simp [hc, hdigit]),
      takeWhile_run hall h, dropWhile_run hall h]
  case isFalse =>
    have hinside : ∀ d ∈ name.toList.flatMap escapeChar, (d != '"') = true :=
      fun d hd => bne_iff_ne.mpr (isInside_of_mem_escaped hd).2.2
    have hquote : Stops (· != '"') ('"' :: rest) := stops_cons (by decide) rest
    rw [List.append_assoc, List.cons_append, read?, if_pos rfl, List.singleton_append,
      dropWhile_run hinside hquote, takeWhile_run hinside hquote, unescape_escaped]
    rfl

/-- Different names are printed differently. -/
theorem printed_inj {name name' : String} : printed name = printed name' ↔ name = name' := by
  refine ⟨fun h => ?_, congrArg printed⟩
  have hnil : Stops isBareChar [] := nofun
  have hread := read?_printed name hnil
  rw [h, read?_printed name' hnil] at hread
  exact (bytes_inj.mp (congrArg Prod.fst (Option.some.inj hread))).symm

/-- What is printed in quotes has visible characters only. -/
theorem not_mem_quoted {c : Char} (h : c < '!') (cs : List Char) : c ∉ '"' :: cs.flatMap escapeChar ++ ['"'] := by
  intro hmem
  simp only [List.cons_append, List.mem_cons, List.mem_append, List.not_mem_nil, or_false] at hmem
  rcases hmem with rfl | hmem | rfl
  · exact absurd h (by decide)
  · exact Char.not_lt.mpr (isInside_of_mem_escaped hmem).1 h
  · exact absurd h (by decide)

theorem not_mem_printed {c : Char} (h : c < '!') (hbare : isBareChar c = false) (name : String) :
    c ∉ printed name := by
  rw [printed]
  split
  case isTrue hname =>
    intro hmem
    rw [isBareChar_of_isBare hname c hmem] at hbare
    cases hbare
  case isFalse => exact not_mem_quoted h name.toList

end SmallLisp.IR.Name
