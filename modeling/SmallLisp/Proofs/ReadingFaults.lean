import SmallLisp.Syntax.Parser

/-! # Where reading fails

Reading goes forward over whole characters, from one cut of the text to a later one. Every fault is reported
between two cuts that reading has come to: at the next character, at the end of the text, or from where a token
or a form starts up to where reading is. So its span is a part of the text, unless the text is too long for spans.
-/
namespace SmallLisp

/-! ## Parts of a text -/

/-- An offset between two characters of a text, or at an end of it. -/
def IsCut (source : List Char) (n : Nat) : Prop := ∃ before after, source = before ++ after ∧ byteLength before = n

structure Span.PartOf (source : List Char) (s : Span) : Prop where
  ordered : s.start ≤ s.stop
  stop_le : s.stop ≤ byteLength source
  start_cut : IsCut source s.start
  stop_cut : IsCut source s.stop

def Cursor.In (source : List Char) (c : Cursor) : Prop :=
  ∃ before, source = before ++ c.rest ∧ byteLength before = c.offset

section Parts
variable {source : List Char}

theorem IsCut.le {n : Nat} (h : IsCut source n) : n ≤ byteLength source := by
  obtain ⟨before, after, rfl, rfl⟩ := h
  rw [byteLength_append]
  exact Nat.le_add_right _ _

theorem Span.PartOf.ofOffsets {start stop : Nat} (hlen : byteLength source ≤ maxOffset) (hle : start ≤ stop)
    (hstart : IsCut source start) (hstop : IsCut source stop) : Span.PartOf source (.ofOffsets start stop) := by
  rw [ofOffsets_of_le hle (Nat.le_trans hstop.le hlen)]
  exact ⟨hle, hstop.le, hstart, hstop⟩

theorem Span.PartOf.cover {s t : Span} (hs : s.PartOf source) (ht : t.PartOf source) :
    (s.cover t).PartOf source where
  ordered := Nat.le_trans (Nat.min_le_left _ _) (Nat.le_trans hs.ordered (Nat.le_max_left _ _))
  stop_le := Nat.max_le.mpr ⟨hs.stop_le, ht.stop_le⟩
  start_cut := by
    change IsCut source (min s.start t.start)
    rw [Nat.min_def]
    split
    · exact hs.start_cut
    · exact ht.start_cut
  stop_cut := by
    change IsCut source (max s.stop t.stop)
    rw [Nat.max_def]
    split
    · exact ht.stop_cut
    · exact hs.stop_cut

namespace Cursor.In
variable {c : Cursor}

theorem isCut (h : c.In source) : IsCut source c.offset := by
  obtain ⟨before, htext, hoffset⟩ := h
  exact ⟨before, c.rest, htext, hoffset⟩

theorem advance (h : c.In source) : c.advance.In source := by
  obtain ⟨before, htext, hoffset⟩ := h
  obtain ⟨offset, _ | ⟨x, rest⟩⟩ := c
  · exact ⟨before, htext, hoffset⟩
  · refine ⟨before ++ [x], by rw [htext, List.append_assoc]; rfl, ?_⟩
    rw [byteLength_append, hoffset]
    rfl

theorem skip (h : c.In source) (p : Char → Bool) : (c.skip p).In source := by
  obtain ⟨before, htext, hoffset⟩ := h
  refine ⟨before ++ c.rest.takeWhile p, ?_, ?_⟩
  · rw [htext, List.append_assoc, c.takeWhile_append_skip]
  · rw [byteLength_append, hoffset]
    rfl

end Cursor.In
end Parts

/-! ## Steps -/

namespace Parser
variable {α β : Type} {source : List Char} {c : Cursor}

/-- A step that goes on to a place in the text and makes something as described, or fails in a part of the text. -/
def Stays (source : List Char) (step : Parser α) (c : Cursor) (post : α → Prop) : Prop :=
  match step c with
  | .ok a c' => c'.In source ∧ c.offset ≤ c'.offset ∧ post a
  | .error e _ => e.span.PartOf source

namespace Stays
variable {post : α → Prop}

theorem bind {step : Parser α} {f : α → Parser β} {mid : α → Prop} {post : β → Prop}
    (h : Stays source step c mid)
    (hf : ∀ a c', c'.In source → c.offset ≤ c'.offset → mid a → Stays source (f a) c' post) :
    Stays source (step >>= f) c post := by
  unfold Stays at h ⊢
  change match EStateM.bind step f c with | .ok b c' => _ | .error e _ => _
  unfold EStateM.bind
  cases hs : step c with
  | error e c' =>
    rw [hs] at h
    exact h
  | ok a c' =>
    rw [hs] at h
    obtain ⟨hin, hle, hmid⟩ := h
    have hrest := hf a c' hin hle hmid
    unfold Stays at hrest
    dsimp only
    cases hs' : f a c' with
    | error e c'' => rwa [hs'] at hrest
    | ok b c'' =>
      rw [hs'] at hrest
      exact ⟨hrest.1, Nat.le_trans hle hrest.2.1, hrest.2.2⟩

theorem pure {a : α} (hc : c.In source) (h : post a) : Stays source (Pure.pure a) c post :=
  ⟨hc, Nat.le_refl _, h⟩

theorem throw {e : ParseError} (h : e.span.PartOf source) : Stays source (MonadExcept.throw e) c post := h

theorem get_bind {f : Cursor → Parser α} (h : Stays source (f c) c post) : Stays source (get >>= f) c post := h

theorem peek_bind {f : Option Char → Parser α} (h : ∀ x, Stays source (f x) c post) :
    Stays source (peek? >>= f) c post := h _

theorem offset_bind {f : Nat → Parser α} (h : Stays source (f c.offset) c post) :
    Stays source (offset >>= f) c post := h

theorem spanFrom_bind {start : Nat} {f : Span → Parser α} (h : Stays source (f (c.spanFrom start)) c post) :
    Stays source (spanFrom start >>= f) c post := h

theorem advance (hc : c.In source) : Stays source advance c fun _ => True :=
  ⟨hc.advance, c.offset_le_advance, trivial⟩

theorem skipBlanks (hc : c.In source) : Stays source skipBlanks c fun _ => True :=
  ⟨hc.skip _, c.offset_le_skip _, trivial⟩

theorem run (p : Char → Bool) (hc : c.In source) : Stays source (run p) c fun _ => True :=
  ⟨hc.skip _, c.offset_le_skip _, trivial⟩

end Stays

section Reading
variable (hlen : byteLength source ≤ maxOffset)
include hlen

theorem partOf_charSpan (hc : c.In source) : c.charSpan.PartOf source :=
  .ofOffsets hlen c.offset_le_advance hc.isCut hc.advance.isCut

theorem partOf_spanFrom {start : Nat} (hc : c.In source) (hstart : IsCut source start) (hle : start ≤ c.offset) :
    (c.spanFrom start).PartOf source := .ofOffsets hlen hle hstart hc.isCut

/-! ## Tokens -/

theorem unexpected_stays {post : α → Prop} (expected : Expectation) (hc : c.In source) :
    Stays source (unexpected expected) c post := by
  refine .get_bind ?_
  cases h : c.rest with
  | nil => exact .throw (.ofOffsets hlen (Nat.le_refl _) hc.isCut hc.isCut)
  | cons x rest => exact .throw (partOf_charSpan hlen hc)

theorem tokenEnd_stays (opening : Bool) (hc : c.In source) : Stays source (tokenEnd opening) c fun _ => True := by
  refine .peek_bind fun x => ?_
  cases x with
  | none => exact .pure hc trivial
  | some x =>
    dsimp only
    split
    · exact .pure hc trivial
    · exact unexpected_stays hlen _ hc

theorem char_stays (x : Char) (expected : Expectation) (hc : c.In source) :
    Stays source (char x expected) c fun _ => True := by
  refine .peek_bind fun y => ?_
  split
  · exact ⟨hc.advance, c.offset_le_advance, trivial⟩
  · exact unexpected_stays hlen _ hc

theorem identifier_stays (expected : Expectation) (opening : Bool) (hc : c.In source) :
    Stays source (identifier expected opening) c fun _ => True := by
  refine .get_bind ?_
  cases h : c.rest with
  | nil => exact unexpected_stays hlen _ hc
  | cons x rest =>
    dsimp only
    split
    · refine (Stays.run _ hc).bind fun w c₁ hc₁ _ _ => ?_
      exact (tokenEnd_stays hlen opening hc₁).bind fun _ c₂ hc₂ _ _ => .pure hc₂ trivial
    · exact .throw (partOf_charSpan hlen hc)

theorem integer_stays (hc : c.In source) : Stays source integer c (·.span.PartOf source) := by
  refine .offset_bind ((Stays.run _ hc).bind fun w c₁ hc₁ hle₁ _ => .spanFrom_bind ?_)
  have hspan := partOf_spanFrom hlen hc₁ hc.isCut hle₁
  split
  · exact (tokenEnd_stays hlen _ hc₁).bind fun _ c₂ hc₂ _ _ => .pure hc₂ hspan
  · exact .throw hspan

theorem variableName_stays (hc : c.In source) : Stays source variableName c (·.span.PartOf source) := by
  refine .offset_bind ((Stays.run _ hc).bind fun w c₁ hc₁ hle₁ _ => (tokenEnd_stays hlen _ hc₁).bind ?_)
  intro _ c₂ hc₂ hle₂ _
  exact .spanFrom_bind (.pure hc₂ (partOf_spanFrom hlen hc₂ hc.isCut (Nat.le_trans hle₁ hle₂)))

theorem params_stays (n : Nat) : ∀ {c : Cursor}, c.In source → Stays source (params n) c fun _ => True := by
  induction n with
  | zero => exact unexpected_stays hlen _
  | succ n ih =>
    intro c hc
    refine (Stays.skipBlanks hc).bind fun _ c₁ hc₁ _ _ => .peek_bind fun x => ?_
    split
    · exact (Stays.advance hc₁).bind fun _ c₂ hc₂ _ _ => .pure hc₂ trivial
    · refine (identifier_stays hlen _ _ hc₁).bind fun _ c₂ hc₂ _ _ => (ih hc₂).bind fun _ c₃ hc₃ _ _ => ?_
      exact .pure hc₃ trivial

/-! ## Forms -/

section Forms
variable {expr : Parser Expr} (hexpr : ∀ {c : Cursor}, c.In source → Stays source expr c (·.span.PartOf source))
include hexpr

theorem untilClose_stays (n : Nat) :
    ∀ {c : Cursor}, c.In source → Stays source (untilClose expr n) c fun _ => True := by
  induction n with
  | zero => exact unexpected_stays hlen _
  | succ n ih =>
    intro c hc
    refine (Stays.skipBlanks hc).bind fun _ c₁ hc₁ _ _ => .peek_bind fun x => ?_
    cases x with
    | none => exact unexpected_stays hlen _ hc₁
    | some x =>
      dsimp only
      split
      · exact (Stays.advance hc₁).bind fun _ c₂ hc₂ _ _ => .pure hc₂ trivial
      · refine (hexpr hc₁).bind fun _ c₂ hc₂ _ _ => (ih hc₂).bind fun _ c₃ hc₃ _ _ => ?_
        exact .pure hc₃ trivial

variable {start : Nat} (hstart : IsCut source start)
include hstart

theorem definition_stays (n : Nat) (hc : c.In source) (hle : start ≤ c.offset) :
    Stays source (definition expr n start) c (·.span.PartOf source) := by
  refine (Stays.skipBlanks hc).bind fun _ c₁ hc₁ hle₁ _ => ?_
  refine (identifier_stays hlen _ _ hc₁).bind fun name c₂ hc₂ hle₂ _ => ?_
  refine (Stays.skipBlanks hc₂).bind fun _ c₃ hc₃ hle₃ _ => ?_
  refine (char_stays hlen _ _ hc₃).bind fun _ c₄ hc₄ hle₄ _ => ?_
  refine (params_stays hlen n hc₄).bind fun ps c₅ hc₅ hle₅ _ => ?_
  refine (untilClose_stays hlen hexpr n hc₅).bind fun body c₆ hc₆ hle₆ _ => .spanFrom_bind ?_
  have hspan := partOf_spanFrom hlen hc₆ hstart (by omega)
  split
  · exact .throw hspan
  · exact .pure hc₆ hspan

theorem conditional_stays (hc : c.In source) (hle : start ≤ c.offset) :
    Stays source (conditional expr start) c (·.span.PartOf source) := by
  refine (hexpr hc).bind fun test c₁ hc₁ hle₁ htest => ?_
  have hclose {t : Call} {yes : Expr} (no : Option Expr) (c' : Cursor) (hc' : c'.In source)
      (hle' : start ≤ c'.offset) : Stays source (do
        char ')' .closeConditional
        return Expr.branch t yes no (← spanFrom start)) c' (·.span.PartOf source) := by
    refine (char_stays hlen _ _ hc').bind fun _ c'' hc'' hle'' _ => .spanFrom_bind ?_
    exact .pure hc'' (partOf_spanFrom hlen hc'' hstart (Nat.le_trans hle' hle''))
  cases test with
  | call t s =>
    refine (hexpr hc₁).bind fun yes c₂ hc₂ hle₂ _ => ?_
    refine (Stays.skipBlanks hc₂).bind fun _ c₃ hc₃ hle₃ _ => .peek_bind fun x => ?_
    split
    · exact hclose none c₃ hc₃ (by omega)
    · refine (hexpr hc₃).bind fun e c₄ hc₄ hle₄ _ =>
        (Stays.skipBlanks hc₄).bind fun _ c₅ hc₅ hle₅ _ => ?_
      exact hclose (some e) c₅ hc₅ (by omega)
  | _ => exact .throw htest

omit hstart in
theorem form_stays (n : Nat) (hc : c.In source) : Stays source (form expr n) c (·.span.PartOf source) := by
  refine .offset_bind ((Stays.advance hc).bind fun _ c₁ hc₁ hle₁ _ => ?_)
  refine (Stays.skipBlanks hc₁).bind fun _ c₂ hc₂ hle₂ _ => .peek_bind fun x => ?_
  cases x with
  | none => exact unexpected_stays hlen _ hc₂
  | some x =>
    dsimp only
    split
    · refine (Stays.run _ hc₂).bind fun w c₃ hc₃ hle₃ _ => ?_
      refine (tokenEnd_stays hlen _ hc₃).bind fun _ c₄ hc₄ hle₄ _ => ?_
      have hle : c.offset ≤ c₄.offset := by omega
      split
      · exact definition_stays hlen hexpr hc.isCut n hc₄ hle
      split
      · exact conditional_stays hlen hexpr hc.isCut hc₄ hle
      · refine (untilClose_stays hlen hexpr n hc₄).bind fun args c₅ hc₅ hle₅ _ => .spanFrom_bind ?_
        exact .pure hc₅ (partOf_spanFrom hlen hc₅ hc.isCut (Nat.le_trans hle hle₅))
    · exact unexpected_stays hlen _ hc₂

end Forms

theorem exprWithin_stays (n : Nat) :
    ∀ {c : Cursor}, c.In source → Stays source (exprWithin n) c (·.span.PartOf source) := by
  induction n with
  | zero => exact unexpected_stays hlen _
  | succ n ih =>
    intro c hc
    refine (Stays.skipBlanks hc).bind fun _ c₁ hc₁ _ _ => .offset_bind (.peek_bind fun x => ?_)
    cases x with
    | none => exact unexpected_stays hlen _ hc₁
    | some x =>
      dsimp only
      split
      · exact form_stays hlen ih n hc₁
      split
      · refine (Stays.advance hc₁).bind fun _ c₂ hc₂ _ _ => (ih hc₂).bind fun target c₃ hc₃ _ htarget => ?_
        have hpoint : (Span.point c₁.offset).PartOf source := .ofOffsets hlen (Nat.le_refl _) hc₁.isCut hc₁.isCut
        exact .pure hc₃ (hpoint.cover htarget)
      split
      · exact integer_stays hlen hc₁
      split
      · exact variableName_stays hlen hc₁
      · exact unexpected_stays hlen _ hc₁

theorem programWithin_stays (n : Nat) :
    ∀ {c : Cursor}, c.In source → Stays source (programWithin n) c fun _ => True := by
  induction n with
  | zero => exact unexpected_stays hlen _
  | succ n ih =>
    intro c hc
    refine (Stays.skipBlanks hc).bind fun _ c₁ hc₁ _ _ => .peek_bind fun x => ?_
    split
    · exact .pure hc₁ trivial
    · have hexpr : Stays source expr c₁ (·.span.PartOf source) := .get_bind (exprWithin_stays hlen _ hc₁)
      exact hexpr.bind fun _ c₂ hc₂ _ _ => (ih hc₂).bind fun _ c₃ hc₃ _ _ => .pure hc₃ trivial

end Reading
end Parser

/-- A fault that reading stops at is in the text. -/
theorem partOf_of_parse_error {source : String} {e : ParseError} (hlen : byteLength source.toList ≤ maxOffset)
    (h : parse source = .error e) : e.span.PartOf source.toList := by
  have hstart : (Cursor.ofText source).In source.toList := ⟨[], rfl, rfl⟩
  have hstays : Parser.Stays source.toList Parser.program (.ofText source) fun _ => True :=
    .get_bind (Parser.programWithin_stays hlen _ hstart)
  unfold parse at h
  unfold Parser.Stays at hstays
  cases hp : Parser.program (.ofText source) with
  | ok forms c =>
    rw [hp] at h
    cases h
  | error e' c =>
    rw [hp] at h hstays
    cases h
    exact hstays

end SmallLisp
