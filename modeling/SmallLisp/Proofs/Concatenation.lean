import SmallLisp.Proofs.SpanFidelity

/-! # Texts one after the other

What a step of reading does depends on the rest of the text alone. From an offset further on it reads the same, at
places further on, and it fails with the same fault. And no form can tell a blank from the end of the text. So two
texts with a blank between them are read as the one and then the other.
-/
namespace SmallLisp

/-! ## Places further on -/

def ParseError.shift (k : Nat) (e : ParseError) : ParseError := ⟨e.fault, e.span.shift k⟩

def Cursor.shift (k : Nat) (c : Cursor) : Cursor := ⟨k + c.offset, c.rest⟩

def Cursor.Ends (stop : Nat) (c : Cursor) : Prop := c.offset + byteLength c.rest = stop

section Places
variable {k stop : Nat} {c : Cursor}

theorem shift_ofOffsets {start : Nat} (hstart : k + start ≤ maxOffset) (hstop : k + stop ≤ maxOffset) :
    (Span.ofOffsets start stop).shift k = .ofOffsets (k + start) (k + stop) := by
  simp only [Span.ofOffsets, Span.shift, Span.mk.injEq]
  omega

theorem shift_cover (s t : Span) : (s.cover t).shift k = (s.shift k).cover (t.shift k) := by
  simp only [Span.cover, Span.shift, Span.mk.injEq]
  omega

theorem Span.shift_zero (s : Span) : s.shift 0 = s := by rw [Span.shift, Nat.zero_add, Nat.zero_add]

namespace Cursor

theorem shift_rest : (c.shift k).rest = c.rest := rfl

theorem shift_skip (p : Char → Bool) : (c.shift k).skip p = (c.skip p).shift k := by
  simp only [skip, shift, Nat.add_assoc]

theorem shift_advance : (c.shift k).advance = c.advance.shift k := by
  rcases c with ⟨o, _ | ⟨x, r⟩⟩
  · rfl
  · simp only [advance, shift, Nat.add_assoc]

theorem Ends.skip (h : c.Ends stop) (p : Char → Bool) : (c.skip p).Ends stop := (c.skip_total p).trans h

theorem Ends.advance (h : c.Ends stop) : c.advance.Ends stop := c.advance_total.trans h

theorem Ends.offset_le (h : c.Ends stop) : c.offset ≤ stop := by
  rw [← h]
  exact Nat.le_add_right _ _

theorem Ends.point_shift (h : c.Ends stop) (hlen : k + stop ≤ maxOffset) :
    Span.point (c.shift k).offset = (Span.point c.offset).shift k := by
  have := h.offset_le
  exact (shift_ofOffsets (by omega) (by omega)).symm

theorem Ends.charSpan_shift (h : c.Ends stop) (hlen : k + stop ≤ maxOffset) :
    (c.shift k).charSpan = c.charSpan.shift k := by
  have := h.offset_le
  have := h.advance.offset_le
  rw [charSpan, charSpan, shift_advance, shift_ofOffsets (by omega) (by omega)]
  rfl

end Cursor
end Places

/-! ## Steps from another offset -/

namespace Parser
variable {α β : Type} {k stop : Nat} {c : Cursor}

/-- From an offset further on, a second step does what the first does, to places further on; `g` says what the
places are in what it makes. -/
def Shifts (k stop : Nat) (g : α → α) (step step' : Parser α) (c : Cursor) : Prop :=
  match step c with
  | .ok a c' => step' (c.shift k) = .ok (g a) (c'.shift k) ∧ c'.Ends stop
  | .error e c' => step' (c.shift k) = .error (e.shift k) (c'.shift k)

namespace Shifts
variable {g : α → α}

theorem bind {step step' : Parser α} {f f' : α → Parser β} {g' : β → β} (h : Shifts k stop g step step' c)
    (hf : ∀ a c', c'.Ends stop → Shifts k stop g' (f a) (f' (g a)) c') :
    Shifts k stop g' (step >>= f) (step' >>= f') c := by
  change match EStateM.bind step f c with
    | .ok b c' => EStateM.bind step' f' (c.shift k) = .ok (g' b) (c'.shift k) ∧ c'.Ends stop
    | .error e c' => EStateM.bind step' f' (c.shift k) = .error (e.shift k) (c'.shift k)
  unfold Shifts at h
  unfold EStateM.bind
  cases hs : step c with
  | error e c' =>
    rw [hs] at h
    rw [h]
  | ok a c' =>
    rw [hs] at h
    rw [h.1]
    exact hf a c' h.2

theorem pure {a a' : α} (hc : c.Ends stop) (h : a' = g a) : Shifts k stop g (Pure.pure a) (Pure.pure a') c := by
  subst h
  exact ⟨rfl, hc⟩

theorem throw {e e' : ParseError} (h : e' = e.shift k) :
    Shifts k stop g (MonadExcept.throw e) (MonadExcept.throw e') c := by
  subst h
  exact rfl

theorem get_bind {f f' : Cursor → Parser α} (h : Shifts k stop g (f c) (f' (c.shift k)) c) :
    Shifts k stop g (get >>= f) (get >>= f') c := h

theorem peek_bind {f f' : Option Char → Parser α} (h : ∀ x, Shifts k stop g (f x) (f' x) c) :
    Shifts k stop g (peek? >>= f) (peek? >>= f') c := h _

theorem offset_bind {f f' : Nat → Parser α} (h : Shifts k stop g (f c.offset) (f' (k + c.offset)) c) :
    Shifts k stop g (offset >>= f) (offset >>= f') c := h

theorem advance (hc : c.Ends stop) : Shifts k stop id advance advance c :=
  ⟨congrArg (EStateM.Result.ok ()) Cursor.shift_advance, hc.advance⟩

theorem run (p : Char → Bool) (hc : c.Ends stop) : Shifts k stop id (run p) (run p) c :=
  ⟨congrArg (EStateM.Result.ok _) (Cursor.shift_skip p), hc.skip p⟩

theorem skipBlanks (hc : c.Ends stop) : Shifts k stop id skipBlanks skipBlanks c :=
  ⟨congrArg (EStateM.Result.ok ()) (Cursor.shift_skip isBlank), hc.skip isBlank⟩

end Shifts

section Reading
variable (hlen : k + stop ≤ maxOffset)
include hlen

theorem Shifts.spanFrom_bind {g : α → α} {start : Nat} {f f' : Span → Parser α} (hc : c.Ends stop)
    (hstart : start ≤ stop) (h : ∀ s, Shifts k stop g (f s) (f' (s.shift k)) c) :
    Shifts k stop g (spanFrom start >>= f) (spanFrom (k + start) >>= f') c := by
  have hoffset := hc.offset_le
  have hspan := h (c.spanFrom start)
  rw [Cursor.spanFrom, shift_ofOffsets (by omega) (by omega)] at hspan
  exact hspan

/-! ## Tokens -/

theorem unexpected_shifts {g : α → α} (expected : Expectation) (hc : c.Ends stop) :
    Shifts k stop g (unexpected expected) (unexpected expected) c := by
  refine .get_bind ?_
  rw [Cursor.shift_rest]
  cases c.rest with
  | nil => exact .throw (congrArg _ (hc.point_shift hlen))
  | cons x rest => exact .throw (congrArg _ (hc.charSpan_shift hlen))

theorem tokenEnd_shifts (opening : Bool) (hc : c.Ends stop) :
    Shifts k stop id (tokenEnd opening) (tokenEnd opening) c := by
  refine .peek_bind fun x => ?_
  cases x with
  | none => exact .pure hc rfl
  | some x =>
    dsimp only
    split
    · exact .pure hc rfl
    · exact unexpected_shifts hlen _ hc

theorem char_shifts (x : Char) (expected : Expectation) (hc : c.Ends stop) :
    Shifts k stop id (char x expected) (char x expected) c := by
  refine .peek_bind fun y => ?_
  split
  · exact .advance hc
  · exact unexpected_shifts hlen _ hc

theorem identifier_shifts (expected : Expectation) (opening : Bool) (hc : c.Ends stop) :
    Shifts k stop id (identifier expected opening) (identifier expected opening) c := by
  refine .get_bind ?_
  rw [Cursor.shift_rest]
  cases c.rest with
  | nil => exact unexpected_shifts hlen _ hc
  | cons x rest =>
    dsimp only
    split
    · refine (Shifts.run _ hc).bind fun w c₁ hc₁ =>
        (tokenEnd_shifts hlen opening hc₁).bind fun _ c₂ hc₂ => ?_
      exact .pure hc₂ rfl
    · exact .throw (congrArg _ (hc.charSpan_shift hlen))

theorem integer_shifts (hc : c.Ends stop) : Shifts k stop (Expr.mapSpans (·.shift k)) integer integer c := by
  refine .offset_bind ((Shifts.run _ hc).bind fun w c₁ hc₁ => .spanFrom_bind hlen hc₁ hc.offset_le fun s => ?_)
  dsimp only [id]
  split
  · exact (tokenEnd_shifts hlen _ hc₁).bind fun _ c₂ hc₂ => .pure hc₂ (by rw [Expr.mapSpans])
  · exact .throw rfl

theorem variableName_shifts (hc : c.Ends stop) :
    Shifts k stop (Expr.mapSpans (·.shift k)) variableName variableName c := by
  refine .offset_bind ((Shifts.run _ hc).bind fun w c₁ hc₁ =>
    (tokenEnd_shifts hlen _ hc₁).bind fun _ c₂ hc₂ => ?_)
  exact .spanFrom_bind hlen hc₂ hc.offset_le fun s => .pure hc₂ (by rw [Expr.mapSpans]; rfl)

theorem params_shifts (n : Nat) : ∀ {c : Cursor}, c.Ends stop → Shifts k stop id (params n) (params n) c := by
  induction n with
  | zero => exact unexpected_shifts hlen _
  | succ n ih =>
    intro c hc
    refine (Shifts.skipBlanks hc).bind fun _ c₁ hc₁ => .peek_bind fun x => ?_
    split
    · exact (Shifts.advance hc₁).bind fun _ c₂ hc₂ => .pure hc₂ rfl
    · refine (identifier_shifts hlen _ _ hc₁).bind fun _ c₂ hc₂ => (ih hc₂).bind fun _ c₃ hc₃ => ?_
      exact .pure hc₃ rfl

/-! ## Forms -/

section Forms
variable {expr : Parser Expr}
  (hexpr : ∀ {c : Cursor}, c.Ends stop → Shifts k stop (Expr.mapSpans (·.shift k)) expr expr c)
include hexpr

theorem untilClose_shifts (n : Nat) : ∀ {c : Cursor}, c.Ends stop →
    Shifts k stop (List.map (Expr.mapSpans (·.shift k))) (untilClose expr n) (untilClose expr n) c := by
  induction n with
  | zero => exact unexpected_shifts hlen _
  | succ n ih =>
    intro c hc
    refine (Shifts.skipBlanks hc).bind fun _ c₁ hc₁ => .peek_bind fun x => ?_
    cases x with
    | none => exact unexpected_shifts hlen _ hc₁
    | some x =>
      dsimp only
      split
      · exact (Shifts.advance hc₁).bind fun _ c₂ hc₂ => .pure hc₂ rfl
      · exact (hexpr hc₁).bind fun _ c₂ hc₂ => (ih hc₂).bind fun _ c₃ hc₃ => .pure hc₃ rfl

variable {start : Nat} (hstart : start ≤ stop)
include hstart

theorem definition_shifts (n : Nat) (hc : c.Ends stop) : Shifts k stop (Expr.mapSpans (·.shift k))
    (definition expr n start) (definition expr n (k + start)) c := by
  refine (Shifts.skipBlanks hc).bind fun _ c₁ hc₁ => ?_
  refine (identifier_shifts hlen _ _ hc₁).bind fun name c₂ hc₂ => ?_
  refine (Shifts.skipBlanks hc₂).bind fun _ c₃ hc₃ => ?_
  refine (char_shifts hlen _ _ hc₃).bind fun _ c₄ hc₄ => ?_
  refine (params_shifts hlen n hc₄).bind fun ps c₅ hc₅ => ?_
  refine (untilClose_shifts hlen hexpr n hc₅).bind fun body c₆ hc₆ => .spanFrom_bind hlen hc₆ hstart fun s => ?_
  rw [List.isEmpty_map]
  split
  · exact .throw rfl
  · refine .pure hc₆ ?_
    rw [Expr.mapSpans, Definition.mapSpans_eq]
    rfl

theorem conditional_shifts (hc : c.Ends stop) : Shifts k stop (Expr.mapSpans (·.shift k))
    (conditional expr start) (conditional expr (k + start)) c := by
  refine (hexpr hc).bind fun test c₁ hc₁ => ?_
  have hclose {t : Call} {yes : Expr} (no : Option Expr) {c' : Cursor} (hc' : c'.Ends stop) :
      Shifts k stop (Expr.mapSpans (·.shift k))
        (do
          char ')' .closeConditional
          return Expr.branch t yes no (← spanFrom start))
        (do
          char ')' .closeConditional
          return Expr.branch (t.mapSpans (·.shift k)) (yes.mapSpans (·.shift k))
            (no.map (Expr.mapSpans (·.shift k))) (← spanFrom (k + start))) c' := by
    refine (char_shifts hlen _ _ hc').bind fun _ c'' hc'' => .spanFrom_bind hlen hc'' hstart fun s => ?_
    exact .pure hc'' (Expr.mapSpans_branch _ _ _ _ _).symm
  cases test with
  | call t s =>
    rw [Expr.mapSpans]
    refine (hexpr hc₁).bind fun yes c₂ hc₂ => ?_
    refine (Shifts.skipBlanks hc₂).bind fun _ c₃ hc₃ => .peek_bind fun x => ?_
    split
    · exact hclose none hc₃
    · refine (hexpr hc₃).bind fun e c₄ hc₄ => (Shifts.skipBlanks hc₄).bind fun _ c₅ hc₅ => ?_
      exact hclose (some e) hc₅
  | branch t yes no s =>
    rw [Expr.mapSpans_branch]
    exact .throw rfl
  | _ =>
    rw [Expr.mapSpans]
    exact .throw rfl

omit hstart in
theorem form_shifts (n : Nat) (hc : c.Ends stop) :
    Shifts k stop (Expr.mapSpans (·.shift k)) (form expr n) (form expr n) c := by
  have hstart := hc.offset_le
  refine .offset_bind ((Shifts.advance hc).bind fun _ c₁ hc₁ => ?_)
  refine (Shifts.skipBlanks hc₁).bind fun _ c₂ hc₂ => .peek_bind fun x => ?_
  cases x with
  | none => exact unexpected_shifts hlen _ hc₂
  | some x =>
    dsimp only
    split
    · refine (Shifts.run _ hc₂).bind fun w c₃ hc₃ => (tokenEnd_shifts hlen _ hc₃).bind fun _ c₄ hc₄ => ?_
      dsimp only [id]
      split
      · exact definition_shifts hlen hexpr hstart n hc₄
      split
      · exact conditional_shifts hlen hexpr hstart hc₄
      · refine (untilClose_shifts hlen hexpr n hc₄).bind fun args c₅ hc₅ => ?_
        refine .spanFrom_bind hlen hc₅ hstart fun s => .pure hc₅ ?_
        rw [Expr.mapSpans, Call.mapSpans_eq]
    · exact unexpected_shifts hlen _ hc₂

end Forms

theorem exprWithin_shifts (n : Nat) : ∀ {c : Cursor}, c.Ends stop →
    Shifts k stop (Expr.mapSpans (·.shift k)) (exprWithin n) (exprWithin n) c := by
  induction n with
  | zero => exact unexpected_shifts hlen _
  | succ n ih =>
    intro c hc
    refine (Shifts.skipBlanks hc).bind fun _ c₁ hc₁ => .offset_bind (.peek_bind fun x => ?_)
    cases x with
    | none => exact unexpected_shifts hlen _ hc₁
    | some x =>
      dsimp only
      split
      · exact form_shifts hlen ih n hc₁
      split
      · refine (Shifts.advance hc₁).bind fun _ c₂ hc₂ => (ih hc₂).bind fun target c₃ hc₃ => .pure hc₃ ?_
        rw [Expr.mapSpans, Expr.span_mapSpans, shift_cover, ← hc₁.point_shift hlen]
        rfl
      split
      · exact integer_shifts hlen hc₁
      split
      · exact variableName_shifts hlen hc₁
      · exact unexpected_shifts hlen _ hc₁

theorem programWithin_shifts (n : Nat) : ∀ {c : Cursor}, c.Ends stop →
    Shifts k stop (List.map (Expr.mapSpans (·.shift k))) (programWithin n) (programWithin n) c := by
  induction n with
  | zero => exact unexpected_shifts hlen _
  | succ n ih =>
    intro c hc
    refine (Shifts.skipBlanks hc).bind fun _ c₁ hc₁ => .peek_bind fun x => ?_
    split
    · exact .pure hc₁ rfl
    · have hexpr : Shifts k stop (Expr.mapSpans (·.shift k)) expr expr c₁ :=
        .get_bind (exprWithin_shifts hlen _ hc₁)
      exact hexpr.bind fun _ c₂ hc₂ => (ih hc₂).bind fun _ c₃ hc₃ => .pure hc₃ rfl

end Reading

/-! ## Forms up to the end of a text -/

theorem map_congr_at {p q : Parser α} {f : α → β} {c c' : Cursor} (h : p c = q c') :
    (f <$> p) c = (f <$> q) c' := by
  change EStateM.map f p c = EStateM.map f q c'
  rw [EStateM.map, EStateM.map, h]

theorem programWithin_succ (n : Nat) (c : Cursor) : programWithin (n + 1) c =
    match (c.skip isBlank).rest with
    | [] => .ok [] (c.skip isBlank)
    | _ :: _ =>
      match expr (c.skip isBlank) with
      | .ok e c' => ((e :: ·) <$> programWithin n) c'
      | .error e c' => .error e c' := by
  change (if (c.skip isBlank).rest.head?.isNone then _ else EStateM.bind expr _ : Parser (List Expr))
    (c.skip isBlank) = _
  simp only [bind_pure_comp]
  cases (c.skip isBlank).rest with
  | nil => rfl
  | cons x rest =>
    change EStateM.bind expr _ _ = _
    unfold EStateM.bind
    cases expr (c.skip isBlank) <;> rfl

theorem length_skip_le (p : Char → Bool) (c : Cursor) : (c.skip p).rest.length ≤ c.rest.length :=
  (List.dropWhile_suffix p).length_le

theorem Takes.length_lt {step : Parser α} {post : List Char → α → List Char → Prop} {a : α} {c c' : Cursor}
    (h : Takes step c.offset c.rest post) (hpost : ∀ w a rest, post w a rest → w ≠ []) (hs : step c = .ok a c') :
    c'.rest.length < c.rest.length := by
  change match step c with
    | .ok a c' => ∃ w, c.rest = w ++ c'.rest ∧ c'.offset = c.offset + byteLength w ∧ post w a c'.rest
    | .error _ _ => True at h
  rw [hs] at h
  obtain ⟨w, hrest, -, hw⟩ := h
  have hpos := List.length_pos_iff.mpr (hpost w a _ hw)
  rw [hrest, List.length_append]
  omega

/-- A form takes characters off the text. -/
theorem length_lt_of_exprWithin {n : Nat} {c c' : Cursor} {e : Expr} (h : exprWithin n c = .ok e c') :
    c'.rest.length < c.rest.length := by
  apply (exprWithin_takes n c.offset c.rest).length_lt _ h
  rintro w e rest ⟨b, v, rfl, -, hv⟩
  exact List.append_ne_nil_of_right_ne_nil b hv.ne_nil

theorem length_lt_of_expr {c c' : Cursor} {e : Expr} (h : expr c = .ok e c') : c'.rest.length < c.rest.length :=
  length_lt_of_exprWithin h

/-- Any bound greater than the number of characters will do. -/
theorem programWithin_congr (n : Nat) : ∀ {m : Nat} {c : Cursor}, c.rest.length < n → c.rest.length < m →
    programWithin n c = programWithin m c := by
  induction n with
  | zero => exact fun h _ => absurd h (Nat.not_lt_zero _)
  | succ n ih =>
    rintro (_ | m) c hn hm
    · exact absurd hm (Nat.not_lt_zero _)
    · rw [programWithin_succ, programWithin_succ]
      have hskip := length_skip_le isBlank c
      cases (c.skip isBlank).rest with
      | nil => rfl
      | cons x rest =>
        dsimp only
        cases he : expr (c.skip isBlank) with
        | error e c' => rfl
        | ok e c' =>
          have hlt := length_lt_of_expr he
          exact map_congr_at (ih (by omega) (by omega))

end Parser

/-! ## Two texts -/

section Texts
variable {o : Nat} {w : Char}

theorem utf8Size_of_isBlank (hw : isBlank w = true) : w.utf8Size = 1 := by
  have hmem := isBlank_iff.mp hw
  simp only [List.mem_cons, List.not_mem_nil, or_false] at hmem
  rcases hmem with rfl | rfl | rfl | rfl <;> rfl

/-- Blanks at the start of a text are skipped, one by one. -/
theorem Cursor.skip_blanks_append {b text : List Char} (hb : Blanks b) :
    Cursor.skip isBlank ⟨o, b ++ text⟩ = Cursor.skip isBlank ⟨o + byteLength b, text⟩ := by
  simp only [skip, List.takeWhile_append_of_pos hb, List.dropWhile_append_of_pos hb, byteLength_append, Nat.add_assoc]

/-- A form is read alike where another text follows, if a token may end before it too. -/
theorem PartAt.congr_next {v next next' : List Char} {e : Expr} (h : PartAt o v (.form e) next)
    (hlen : o + byteLength v ≤ maxOffset) (hnext : TokenEnds false next → TokenEnds false next') :
    PartAt o v (.form e) next' := by
  obtain ⟨e', he', hshift⟩ : (Part.form e).Moved 0 o v next' := h.moved (Nat.zero_add o).symm hlen hnext
  simp only [Span.shift_zero, Expr.mapSpans_id] at hshift
  rwa [← hshift]

/-- After the forms of a text and a blank, the rest is read as a text of its own. -/
theorem FormsAt.programWithin_append {a b : List Char} {es : List Expr} (h : FormsAt o a es) (hw : isBlank w = true)
    (hlen : o + byteLength a ≤ maxOffset) : ∀ {n}, (a ++ w :: b).length < n →
    Parser.programWithin n ⟨o, a ++ w :: b⟩ = ((es ++ ·) <$> Parser.programWithin n)
      ⟨o + byteLength a + 1, b⟩ := by
  induction h with
  | @nil o a ha =>
    rintro (_ | n) hn
    · exact absurd hn (Nat.not_lt_zero _)
    · have hskip : Cursor.skip isBlank ⟨o, a ++ [w] ++ b⟩ = _ :=
        Cursor.skip_blanks_append (ha.append (List.forall_mem_singleton.mpr hw))
      rw [List.append_assoc, List.singleton_append, byteLength_append, byteLength_cons, utf8Size_of_isBlank hw] at hskip
      change _ = (id <$> Parser.programWithin (n + 1)) _
      rw [id_map, Parser.programWithin_succ, Parser.programWithin_succ, hskip]
      rfl
  | @cons o a v ws e es ha he hs ih =>
    rintro (_ | n) hn
    · exact absurd hn (Nat.not_lt_zero _)
    · simp only [byteLength_append] at hlen
      simp only [List.length_append, List.length_cons] at hn
      obtain ⟨c, v, rfl, hc, -⟩ := he.start
      have hskip : Cursor.skip isBlank ⟨o, (a ++ (c :: v ++ ws)) ++ w :: b⟩ =
          ⟨o + byteLength a, c :: v ++ (ws ++ w :: b)⟩ := by
        rw [List.append_assoc, Cursor.skip_blanks_append ha]
        simp [Cursor.skip, hc]
      have hnext : PartAt (o + byteLength a) (c :: v) (.form e) (ws ++ w :: b) := by
        refine he.congr_next (by omega) ?_
        cases ws with
        | nil => exact fun _ => .inl hw
        | cons d ws => exact id
      have hread : Parser.Reads Parser.expr (o + byteLength a) (c :: v) e (ws ++ w :: b) :=
        .get_bind (Parser.exprWithin_reads _ (by simp; omega) hnext.spacedAt)
      unfold Parser.Reads at hread
      have hrest := @ih (by omega) n (by simp at hn ⊢; omega)
      rw [Parser.programWithin_succ, hskip]
      dsimp only [List.cons_append]
      rw [← List.cons_append, hread]
      calc ((e :: ·) <$> Parser.programWithin n) ⟨o + byteLength a + byteLength (c :: v), ws ++ w :: b⟩
        _ = ((e :: ·) <$> (es ++ ·) <$> Parser.programWithin n)
            ⟨o + byteLength a + byteLength (c :: v) + byteLength ws + 1, b⟩ := Parser.map_congr_at hrest
        _ = ((e :: es ++ ·) <$> Parser.programWithin n)
            ⟨o + byteLength a + byteLength (c :: v) + byteLength ws + 1, b⟩ := by
          rw [Functor.map_map]
          rfl
        _ = ((e :: es ++ ·) <$> Parser.programWithin (n + 1)) ⟨o + byteLength (a ++ (c :: v ++ ws)) + 1, b⟩ := by
          rw [byteLength_append, byteLength_append, ← Nat.add_assoc, ← Nat.add_assoc]
          exact Parser.map_congr_at (Parser.programWithin_congr n (by simp; omega) (by simp; omega))

end Texts

/-- A text with a blank after it is read first, and then the rest as it is read on its own, so many bytes further
on. -/
theorem parse_append {a b : String} {w : Char} {forms : List Expr} (hw : isBlank w = true)
    (hlen : byteLength a.toList + byteLength b.toList < 4294967295) (h : parse a = .ok forms) :
    parse (a ++ String.singleton w ++ b) = match parse b with
      | .ok forms' => .ok (forms ++ forms'.map (Expr.mapSpans (·.shift (byteLength a.toList + 1))))
      | .error e => .error (e.shift (byteLength a.toList + 1)) := by
  have hmax : byteLength a.toList + byteLength b.toList < maxOffset := hlen
  have htext : (a ++ String.singleton w ++ b).toList = a.toList ++ w :: b.toList := by simp
  have hrun := (formsAt_of_parse h).programWithin_append (b := b.toList) hw (by omega) (Nat.lt_succ_self _)
  have hfuel := Parser.programWithin_congr (a.toList ++ w :: b.toList).length.succ (m := b.toList.length + 1)
    (c := ⟨0 + byteLength a.toList + 1, b.toList⟩) (by simp; omega) (Nat.lt_succ_self _)
  have hshift : Parser.Shifts (byteLength a.toList + 1) (byteLength b.toList) _ _ _ ⟨0, b.toList⟩ :=
    Parser.programWithin_shifts (by omega) (b.toList.length + 1) (Nat.zero_add _)
  rw [Parser.map_congr_at hfuel, Nat.zero_add] at hrun
  change _ = EStateM.map _ _ _ at hrun
  rw [EStateM.map] at hrun
  rw [parse, Parser.program_ofText, htext, hrun, parse, Parser.program_ofText]
  have hstart : Cursor.shift (byteLength a.toList + 1) ⟨0, b.toList⟩ = ⟨byteLength a.toList + 1, b.toList⟩ :=
    congrArg (Cursor.mk · b.toList) (Nat.add_zero _)
  unfold Parser.Shifts at hshift
  rw [hstart] at hshift
  cases hb : Parser.programWithin (b.toList.length + 1) ⟨0, b.toList⟩ with
  | ok forms' c =>
    rw [hb] at hshift
    rw [hshift.1]
  | error e c =>
    rw [hb] at hshift
    rw [hshift]

theorem parse_append_newline :
    parse "(f 1)" = .ok [.call ⟨"f", [.int 1 ⟨3, 4⟩], ⟨0, 5⟩⟩ ⟨0, 5⟩] ∧
    parse "(f 1)\nx y" = .ok [.call ⟨"f", [.int 1 ⟨3, 4⟩], ⟨0, 5⟩⟩ ⟨0, 5⟩, .name "x" ⟨6, 7⟩,
      .name "y" ⟨8, 9⟩] ∧
    parse "(f 1)\nx Y" = .error ⟨.unexpectedChar 'Y' .expression, ⟨8, 9⟩⟩ := by
  have hread : parse "(f 1)" = .ok [.call ⟨"f", [.int 1 ⟨3, 4⟩], ⟨0, 5⟩⟩ ⟨0, 5⟩] := by rfl
  exact ⟨hread, parse_append (b := "x y") (w := '\n') rfl (by decide) hread,
    parse_append (b := "x Y") (w := '\n') rfl (by decide) hread⟩

end SmallLisp
