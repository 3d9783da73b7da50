import SmallLisp.Proofs.Concatenation
import SmallLisp.Proofs.ReadingFaults

/-! # Where reading stops

Reading passes over characters of one byte only, since every token is made of them, and whatever else the text holds
stops it. So it stops between two characters of the text, also where it fails: a fault that names a character is at
that character, which is the next one, and the end of the text is only reported where nothing is left.
-/
namespace SmallLisp

/-! ## Places -/

/-- A cursor that is come to from another by passing over characters of one byte each. -/
def Cursor.Reaches (c c' : Cursor) : Prop :=
  ∃ w, c.rest = w ++ c'.rest ∧ c'.offset = c.offset + w.length ∧ ∀ x ∈ w, x.utf8Size = 1

def ParseError.At (e : ParseError) (c : Cursor) : Prop :=
  match e.fault with
  | .unexpectedChar found _ | .expectedName found _ =>
    c.rest.head? = some found ∧ e.span = .ofOffsets c.offset (c.offset + found.utf8Size)
  | .unexpectedEnd _ => c.rest = [] ∧ e.span = .point c.offset
  | .integerOverflow _ | .emptyBody _ | .conditionNotCall => True

theorem byteLength_eq_length {w : List Char} (h : ∀ x ∈ w, x.utf8Size = 1) : byteLength w = w.length := by
  induction w with
  | nil => rfl
  | cons x w ih =>
    obtain ⟨hx, hw⟩ := List.forall_mem_cons.mp h
    rw [byteLength_cons, hx, ih hw, List.length_cons, Nat.add_comm]

namespace Cursor
variable {source : List Char} {c c' c'' : Cursor}

theorem Reaches.refl (c : Cursor) : c.Reaches c := ⟨[], rfl, rfl, nofun⟩

theorem Reaches.trans (h : c.Reaches c') (h' : c'.Reaches c'') : c.Reaches c'' := by
  obtain ⟨w, hw, hoffset, hsize⟩ := h
  obtain ⟨w', hw', hoffset', hsize'⟩ := h'
  refine ⟨w ++ w', ?_, ?_, List.forall_mem_append.mpr ⟨hsize, hsize'⟩⟩
  · rw [hw, hw', List.append_assoc]
  · rw [hoffset', hoffset, List.length_append, Nat.add_assoc]

theorem Reaches.offset_le (h : c.Reaches c') : c.offset ≤ c'.offset := by
  obtain ⟨w, -, hoffset, -⟩ := h
  rw [hoffset]
  exact Nat.le_add_right _ _

theorem Reaches.in_source (h : c.Reaches c') (hc : c.In source) : c'.In source := by
  obtain ⟨w, hw, hoffset, hsize⟩ := h
  obtain ⟨before, htext, hbefore⟩ := hc
  refine ⟨before ++ w, ?_, ?_⟩
  · rw [htext, hw, List.append_assoc]
  · rw [byteLength_append, hbefore, hoffset, byteLength_eq_length hsize]

theorem reaches_skip {p : Char → Bool} (hp : ∀ x, p x = true → x.utf8Size = 1) (c : Cursor) :
    c.Reaches (c.skip p) := by
  have hsize : ∀ x ∈ c.rest.takeWhile p, x.utf8Size = 1 :=
    fun x hx => hp x (List.all_eq_true.mp List.all_takeWhile x hx)
  refine ⟨c.rest.takeWhile p, (c.takeWhile_append_skip p).symm, ?_, hsize⟩
  rw [skip, byteLength_eq_length hsize]

theorem skip_of_stops {p : Char → Bool} (h : Stops p c.rest) : c.skip p = c := by
  obtain ⟨offset, _ | ⟨y, rest⟩⟩ := c
  · rfl
  · have hy : ¬ p y = true := ne_true_of_eq_false (h y rfl)
    rw [skip, List.takeWhile_cons_of_neg hy, List.dropWhile_cons_of_neg hy]
    rfl

theorem skip_of_head {p : Char → Bool} {x : Char} (hx : c.rest.head? = some x) (hp : p x = true) :
    c.skip p = c.advance.skip p := by
  obtain ⟨offset, _ | ⟨y, rest⟩⟩ := c
  · cases hx
  · cases hx
    rw [advance, skip, skip, List.takeWhile_cons_of_pos hp, List.dropWhile_cons_of_pos hp, byteLength_cons,
      Nat.add_assoc]

theorem reaches_advance {x : Char} (hx : c.rest.head? = some x) (hsize : x.utf8Size = 1) : c.Reaches c.advance := by
  obtain ⟨offset, _ | ⟨y, rest⟩⟩ := c
  · cases hx
  · cases hx
    exact ⟨[x], rfl, by rw [advance, hsize, List.length_singleton], List.forall_mem_singleton.mpr hsize⟩

end Cursor

/-! ## Characters of tokens -/

theorem utf8Size_of_le {c d : Char} (h : c.val ≤ d.val) (hd : d.val ≤ 127) : c.utf8Size = 1 :=
  Char.utf8Size_eq_one_iff.mpr (UInt32.le_trans h hd)

theorem utf8Size_of_isDigit {c : Char} (h : c.isDigit = true) : c.utf8Size = 1 :=
  utf8Size_of_le (d := '9') (of_decide_eq_true (Bool.and_eq_true_iff.mp h).2) (by decide)

theorem utf8Size_of_isLower {c : Char} (h : c.isLower = true) : c.utf8Size = 1 :=
  utf8Size_of_le (d := 'z') (of_decide_eq_true (Bool.and_eq_true_iff.mp h).2) (by decide)

theorem utf8Size_of_isOperatorChar {c : Char} (h : isOperatorChar c = true) : c.utf8Size = 1 := by
  have hmem : c ∈ ['+', '-', '*', '/', '%', '<', '>', '=', '&'] := List.contains_iff_mem.mp h
  have hall : ['+', '-', '*', '/', '%', '<', '>', '=', '&'].all (·.utf8Size == 1) = true := by rfl
  exact beq_iff_eq.mp (List.all_eq_true.mp hall c hmem)

theorem utf8Size_of_isNameChar {c : Char} (h : isNameChar c = true) : c.utf8Size = 1 := by
  simp only [isNameChar, Bool.or_eq_true, beq_iff_eq] at h
  rcases h with (h | rfl) | h
  · exact utf8Size_of_isLower h
  · rfl
  · exact utf8Size_of_isOperatorChar h

/-! ## Steps -/

namespace Parser
variable {α β : Type} {c : Cursor}

/-- A step that stops, also where it fails, at a place that is come to over characters of one byte, and that reports
faults of what is next where it stops. -/
def Moves (step : Parser α) (c : Cursor) : Prop :=
  match step c with
  | .ok _ c' => c.Reaches c'
  | .error e c' => c.Reaches c' ∧ e.At c'

namespace Moves

theorem bind {step : Parser α} {f : α → Parser β} (h : Moves step c)
    (hf : ∀ a c', Moves (f a) c') : Moves (step >>= f) c := by
  change match EStateM.bind step f c with
    | .ok _ c' => c.Reaches c'
    | .error e c' => c.Reaches c' ∧ e.At c'
  unfold Moves at h
  unfold EStateM.bind
  cases hs : step c with
  | error e c' =>
    rw [hs] at h
    exact h
  | ok a c' =>
    rw [hs] at h
    have hrest := hf a c'
    unfold Moves at hrest
    dsimp only
    cases hs' : f a c' with
    | error e c'' =>
      rw [hs'] at hrest
      exact ⟨h.trans hrest.1, hrest.2⟩
    | ok b c'' =>
      rw [hs'] at hrest
      exact h.trans hrest

theorem pure {a : α} : Moves (Pure.pure a) c := .refl c

theorem throw {e : ParseError} (h : e.At c) : Moves (MonadExcept.throw e : Parser α) c := ⟨.refl c, h⟩

theorem get_bind {f : Cursor → Parser α} (h : Moves (f c) c) : Moves (get >>= f) c := h

theorem peek_bind {f : Option Char → Parser α} (h : Moves (f c.rest.head?) c) : Moves (peek? >>= f) c := h

theorem offset_bind {f : Nat → Parser α} (h : Moves (f c.offset) c) : Moves (offset >>= f) c := h

theorem spanFrom_bind {start : Nat} {f : Span → Parser α} (h : Moves (f (c.spanFrom start)) c) :
    Moves (spanFrom start >>= f) c := h

theorem advance {x : Char} (hx : c.rest.head? = some x) (hsize : x.utf8Size = 1) : Moves advance c :=
  Cursor.reaches_advance hx hsize

theorem run {p : Char → Bool} (hp : ∀ x, p x = true → x.utf8Size = 1) : Moves (run p) c :=
  Cursor.reaches_skip hp c

theorem skipBlanks : Moves skipBlanks c := Cursor.reaches_skip (fun _ => utf8Size_of_isBlank) c

end Moves

/-! ## Tokens -/

theorem at_charSpan {x : Char} (hx : c.rest.head? = some x) (expected : Expectation) :
    ParseError.At ⟨.unexpectedChar x expected, c.charSpan⟩ c ∧
      ParseError.At ⟨.expectedName x expected, c.charSpan⟩ c := by
  obtain ⟨offset, _ | ⟨y, rest⟩⟩ := c
  · cases hx
  · cases hx
    exact ⟨⟨rfl, rfl⟩, rfl, rfl⟩

theorem unexpected_moves (expected : Expectation) : Moves (unexpected expected : Parser α) c := by
  apply Moves.get_bind
  cases h : c.rest with
  | nil => exact .throw ⟨h, rfl⟩
  | cons x rest =>
    apply Moves.throw
    have hx : c.rest.head? = some x := by rw [h, List.head?_cons]
    exact (at_charSpan hx expected).1

theorem tokenEnd_moves (opening : Bool) : Moves (tokenEnd opening) c := by
  apply Moves.peek_bind
  cases c.rest.head? with
  | none => exact .pure
  | some x =>
    dsimp only
    split
    · exact .pure
    · exact unexpected_moves _

theorem char_moves {x : Char} (expected : Expectation) (hsize : x.utf8Size = 1) : Moves (char x expected) c := by
  apply Moves.peek_bind
  by_cases hx : c.rest.head? == some x
  · rw [if_pos hx]
    exact .advance (beq_iff_eq.mp hx) hsize
  · rw [if_neg hx]
    exact unexpected_moves _

theorem identifier_moves (expected : Expectation) (opening : Bool) : Moves (identifier expected opening) c := by
  apply Moves.get_bind
  cases h : c.rest with
  | nil => exact unexpected_moves _
  | cons x rest =>
    have hx : c.rest.head? = some x := by rw [h, List.head?_cons]
    dsimp only
    split
    · apply (Moves.run fun _ => utf8Size_of_isNameChar).bind
      intro w c₁
      exact (tokenEnd_moves opening).bind fun _ _ => .pure
    · exact .throw (at_charSpan hx expected).2

theorem integer_moves : Moves integer c := by
  apply Moves.offset_bind
  apply (Moves.run fun _ => utf8Size_of_isDigit).bind
  intro ds c₁
  apply Moves.spanFrom_bind
  split
  · exact (tokenEnd_moves false).bind fun _ _ => .pure
  · exact .throw trivial

theorem variableName_moves : Moves variableName c := by
  apply Moves.offset_bind
  apply (Moves.run fun _ => utf8Size_of_isNameChar).bind
  intro x c₁
  exact (tokenEnd_moves false).bind fun _ _ => .spanFrom_bind .pure

theorem params_moves (n : Nat) : ∀ {c : Cursor}, Moves (params n) c := by
  induction n with
  | zero => exact unexpected_moves _
  | succ n ih =>
    intro c
    apply Moves.skipBlanks.bind
    intro _ c₁
    apply Moves.peek_bind
    by_cases hclose : c₁.rest.head? == some ')'
    · rw [if_pos hclose]
      exact (Moves.advance (beq_iff_eq.mp hclose) rfl).bind fun _ _ => .pure
    · rw [if_neg hclose]
      exact (identifier_moves _ _).bind fun _ _ => ih.bind fun _ _ => .pure

/-! ## Forms -/

section Forms
variable {expr : Parser Expr} (hexpr : ∀ {c : Cursor}, Moves expr c)
include hexpr

theorem untilClose_moves (n : Nat) : ∀ {c : Cursor}, Moves (untilClose expr n) c := by
  induction n with
  | zero => exact unexpected_moves _
  | succ n ih =>
    intro c
    apply Moves.skipBlanks.bind
    intro _ c₁
    apply Moves.peek_bind
    cases hx : c₁.rest.head? with
    | none => exact unexpected_moves _
    | some x =>
      dsimp only
      split
      case isTrue hclose =>
        obtain rfl : x = ')' := beq_iff_eq.mp hclose
        exact (Moves.advance hx rfl).bind fun _ _ => .pure
      case isFalse => exact hexpr.bind fun _ _ => ih.bind fun _ _ => .pure

theorem definition_moves (n start : Nat) : Moves (definition expr n start) c := by
  apply Moves.skipBlanks.bind
  intro _ c₁
  apply (identifier_moves _ _).bind
  intro name c₂
  apply Moves.skipBlanks.bind
  intro _ c₃
  apply (char_moves _ rfl).bind
  intro _ c₄
  apply (params_moves n).bind
  intro ps c₅
  apply (untilClose_moves hexpr n).bind
  intro body c₆
  apply Moves.spanFrom_bind
  split
  · exact .throw trivial
  · exact .pure

theorem conditional_moves (start : Nat) : Moves (conditional expr start) c := by
  apply hexpr.bind
  intro test c₁
  have hclose {t : Call} {yes : Expr} (no : Option Expr) {c' : Cursor} : Moves (do
      char ')' .closeConditional
      return Expr.branch t yes no (← spanFrom start)) c' :=
    (char_moves _ rfl).bind fun _ _ => .spanFrom_bind .pure
  cases test with
  | call t s =>
    apply hexpr.bind
    intro yes c₂
    apply Moves.skipBlanks.bind
    intro _ c₃
    apply Moves.peek_bind
    split
    · exact hclose none
    · apply hexpr.bind
      intro e c₄
      exact Moves.skipBlanks.bind fun _ _ => hclose (some e)
  | _ => exact .throw trivial

theorem form_moves (n : Nat) (hopen : c.rest.head? = some '(') : Moves (form expr n) c := by
  apply Moves.offset_bind
  apply (Moves.advance hopen rfl).bind
  intro _ c₁
  apply Moves.skipBlanks.bind
  intro _ c₂
  apply Moves.peek_bind
  cases c₂.rest.head? with
  | none => exact unexpected_moves _
  | some x =>
    dsimp only
    split
    · apply (Moves.run fun _ => utf8Size_of_isNameChar).bind
      intro w c₃
      apply (tokenEnd_moves true).bind
      intro _ c₄
      split
      · exact definition_moves hexpr n _
      split
      · exact conditional_moves hexpr _
      · exact (untilClose_moves hexpr n).bind fun _ _ => .spanFrom_bind .pure
    · exact unexpected_moves _

end Forms

theorem exprWithin_moves (n : Nat) : ∀ {c : Cursor}, Moves (exprWithin n) c := by
  induction n with
  | zero => exact unexpected_moves _
  | succ n ih =>
    intro c
    apply Moves.skipBlanks.bind
    intro _ c₁
    apply Moves.offset_bind
    apply Moves.peek_bind
    cases hx : c₁.rest.head? with
    | none => exact unexpected_moves _
    | some x =>
      dsimp only
      split
      case isTrue hopen =>
        obtain rfl : x = '(' := beq_iff_eq.mp hopen
        exact form_moves ih n hx
      split
      case isTrue hamp =>
        obtain rfl : x = '&' := beq_iff_eq.mp hamp
        exact (Moves.advance hx rfl).bind fun _ _ => ih.bind fun _ _ => .pure
      split
      · exact integer_moves
      split
      · exact variableName_moves
      · exact unexpected_moves _

theorem expr_moves : Moves expr c := .get_bind (exprWithin_moves _)

theorem programWithin_moves (n : Nat) : ∀ {c : Cursor}, Moves (programWithin n) c := by
  induction n with
  | zero => exact unexpected_moves _
  | succ n ih =>
    intro c
    apply Moves.skipBlanks.bind
    intro _ c₁
    apply Moves.peek_bind
    split
    · exact .pure
    · exact expr_moves.bind fun _ _ => ih.bind fun _ _ => .pure

theorem program_moves : Moves program c := .get_bind (programWithin_moves _)

/-- A form takes up at least one byte. -/
theorem offset_lt_of_expr {c' : Cursor} {e : Expr} (h : expr c = .ok e c') : c.offset < c'.offset := by
  have hmoves := expr_moves (c := c)
  unfold Moves at hmoves
  rw [h] at hmoves
  obtain ⟨w, hrest, hoffset, -⟩ := hmoves
  have hlt := length_lt_of_expr h
  rw [hrest, List.length_append] at hlt
  omega

end Parser

/-! ## Places of faults -/

def SyntaxFault.found? : SyntaxFault → Option Char
  | .unexpectedChar found _ | .expectedName found _ => some found
  | .unexpectedEnd _ | .integerOverflow _ | .emptyBody _ | .conditionNotCall => none

theorem Cursor.Reaches.exists_slice {source : List Char} {c c' : Cursor} (h : c.Reaches c') (hc : c.In source) :
    ∃ w, slice? c.offset c'.offset source = some w ∧ ∀ x ∈ w, x.utf8Size = 1 := by
  obtain ⟨w, hw, hoffset, hsize⟩ := h
  obtain ⟨before, rfl, hbefore⟩ := hc
  refine ⟨w, ?_, hsize⟩
  rw [hw, hoffset, ← hbefore, ← byteLength_eq_length hsize]
  exact slice?_append before w c'.rest

/-- A fault at a cursor that finds a character has the bytes of that character as its span. -/
theorem ParseError.At.found {source : List Char} {e : ParseError} {c : Cursor} {found : Char} (h : e.At c)
    (hc : c.In source) (hlen : byteLength source ≤ maxOffset) (hfound : e.fault.found? = some found) :
    e.span = ⟨c.offset, c.offset + found.utf8Size⟩ ∧ slice? e.span.start e.span.stop source = some [found] := by
  obtain ⟨hnext, hspan⟩ :
      c.rest.head? = some found ∧ e.span = .ofOffsets c.offset (c.offset + found.utf8Size) := by
    unfold At at h
    cases hfault : e.fault with
    | unexpectedChar x _ | expectedName x _ =>
      rw [hfault] at h hfound
      cases hfound
      exact h
    | _ =>
      rw [hfault] at hfound
      cases hfound
  obtain ⟨rest, hrest⟩ := List.head?_eq_some_iff.mp hnext
  obtain ⟨before, rfl, hbefore⟩ := hc
  have hstop : c.offset + found.utf8Size ≤ maxOffset := by
    rw [hrest, byteLength_append, byteLength_cons] at hlen
    omega
  rw [Span.ofOffsets_of_le (Nat.le_add_right _ _) hstop] at hspan
  refine ⟨hspan, ?_⟩
  rw [hspan, hrest, ← hbefore]
  exact slice?_append before [found] rest

/-- A fault at a cursor that finds the end of the text is at the end. -/
theorem ParseError.At.at_end {source : List Char} {e : ParseError} {c : Cursor} {expected : Expectation} (h : e.At c)
    (hc : c.In source) (hend : e.fault = .unexpectedEnd expected) :
    c.offset = byteLength source ∧ e.span = .point (byteLength source) := by
  unfold At at h
  rw [hend] at h
  obtain ⟨before, rfl, hbefore⟩ := hc
  have hoffset : c.offset = byteLength (before ++ c.rest) := by rw [h.1, List.append_nil, hbefore]
  exact ⟨hoffset, hoffset ▸ h.2⟩

end SmallLisp
