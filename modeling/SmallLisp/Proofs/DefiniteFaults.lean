import SmallLisp.Proofs.ReadingPlaces

/-! # Faults that stay

Where a text goes on, reading it does the same as before up to the end that the text had, for a step looks one character
ahead at most. What it does there may change: a number or a name may grow. But a grown number that was too great is
too great, and what was no call and still grows becomes no call. So a fault other than the end of the text stays a
fault, and the end of the text is reported where the text ends.
-/
namespace SmallLisp

/-- A fault that more text could mend. -/
def SyntaxFault.IsEnd (f : SyntaxFault) : Prop := ∃ expected, f = .unexpectedEnd expected

def Expr.NotCall (e : Expr) : Prop := ∀ c s, e ≠ .call c s

def Cursor.extend (t : List Char) (c : Cursor) : Cursor := ⟨c.offset, c.rest ++ t⟩

namespace Cursor
variable {t : List Char} {c : Cursor}

/-- A run that ends before the text does is the same where the text goes on. -/
theorem skip_extend {p : Char → Bool} (h : (c.skip p).rest ≠ []) :
    (c.rest ++ t).takeWhile p = c.rest.takeWhile p ∧ (c.extend t).skip p = (c.skip p).extend t := by
  have hlt : (c.rest.takeWhile p).length ≠ c.rest.length := by
    intro hlen
    have hall := congrArg List.length (c.takeWhile_append_skip p)
    rw [List.length_append, hlen] at hall
    exact h (List.eq_nil_of_length_eq_zero (by omega))
  have htake : (c.rest ++ t).takeWhile p = c.rest.takeWhile p := by rw [List.takeWhile_append, if_neg hlt]
  refine ⟨htake, ?_⟩
  have hdrop : (c.rest ++ t).dropWhile p = c.rest.dropWhile p ++ t := by
    rw [List.dropWhile_append, if_neg (by simpa [skip] using h)]
  simp only [skip, extend, htake, hdrop]

/-- A run up to the end of the text may grow. -/
theorem takeWhile_grows {p : Char → Bool} (h : (c.skip p).rest = []) :
    c.rest.takeWhile p <+: (c.rest ++ t).takeWhile p := by
  have hall := c.takeWhile_append_skip p
  rw [h, List.append_nil] at hall
  rw [List.takeWhile_append, if_pos (congrArg List.length hall), hall]
  exact List.prefix_append _ _

end Cursor

/-! ## A step at the end of a text -/

namespace Parser
variable {α β : Type} {c : Cursor}

theorem bind_of_ok {step : Parser α} {f : α → Parser β} {a : α} {c' : Cursor} (h : step c = .ok a c') :
    (step >>= f) c = f a c' := by
  change EStateM.bind step f c = _
  rw [EStateM.bind, h]

theorem peek_at_end : ∀ c : Cursor, c.rest = [] → peek? c = .ok none c := by
  rintro ⟨offset, _⟩ rfl
  rfl

theorem tokenEnd_at_end (opening : Bool) : ∀ c : Cursor, c.rest = [] → tokenEnd opening c = .ok () c := by
  rintro ⟨offset, _⟩ rfl
  rfl

/-- A step that fails for want of text where the text has ended. -/
def Wants (step : Parser α) : Prop :=
  ∀ c : Cursor, c.rest = [] → ∃ e c', step c = .error e c' ∧ e.fault.IsEnd

namespace Wants

theorem bind {step : Parser α} {f : α → Parser β} (h : Wants step) : Wants (step >>= f) := by
  intro c hc
  obtain ⟨e, c', hs, hend⟩ := h c hc
  refine ⟨e, c', ?_, hend⟩
  change EStateM.bind step f c = _
  rw [EStateM.bind, hs]

/-- A step that stays where it is, at the end of a text, leaves the next one to fail. -/
theorem after {step : Parser α} {f : α → Parser β} {a : α}
    (hs : ∀ c : Cursor, c.rest = [] → step c = .ok a c) (h : Wants (f a)) : Wants (step >>= f) := by
  intro c hc
  obtain ⟨e, c', hs', hend⟩ := h c hc
  exact ⟨e, c', (bind_of_ok (hs c hc)).trans hs', hend⟩

theorem unexpected {expected : Expectation} : Wants (Parser.unexpected expected : Parser α) := by
  rintro ⟨offset, _⟩ rfl
  exact ⟨_, _, rfl, expected, rfl⟩

theorem skipBlanks_bind {f : Unit → Parser β} (h : Wants (f ())) : Wants (skipBlanks >>= f) :=
  after (fun _ hc => congrArg (EStateM.Result.ok ()) (Cursor.skip_of_stops (hc ▸ nofun))) h

theorem peek_bind {f : Option Char → Parser β} (h : Wants (f none)) : Wants (peek? >>= f) := after peek_at_end h

theorem offset_bind {f : Nat → Parser β} (h : ∀ n, Wants (f n)) : Wants (offset >>= f) := fun c => h c.offset c

theorem tokenEnd_bind {opening : Bool} {f : Unit → Parser β} (h : Wants (f ())) : Wants (tokenEnd opening >>= f) :=
  after (tokenEnd_at_end opening) h

end Wants

theorem char_wants (x : Char) (expected : Expectation) : Wants (char x expected) := .peek_bind .unexpected

theorem identifier_wants (expected : Expectation) (opening : Bool) : Wants (identifier expected opening) := by
  rintro ⟨offset, _⟩ rfl
  exact ⟨_, _, rfl, expected, rfl⟩

theorem params_wants (n : Nat) : Wants (params n) := by
  cases n with
  | zero => exact .unexpected
  | succ n => exact .skipBlanks_bind (.peek_bind (identifier_wants _ _).bind)

theorem untilClose_wants (expr : Parser Expr) (n : Nat) : Wants (untilClose expr n) := by
  cases n with
  | zero => exact .unexpected
  | succ n => exact .skipBlanks_bind (.peek_bind .unexpected)

theorem definition_wants (expr : Parser Expr) (n start : Nat) : Wants (definition expr n start) :=
  .skipBlanks_bind (identifier_wants _ _).bind

theorem exprWithin_wants (n : Nat) : Wants (exprWithin n) := by
  cases n with
  | zero => exact .unexpected
  | succ n =>
    rintro ⟨offset, _⟩ rfl
    exact ⟨_, _, rfl, .expression, rfl⟩

theorem conditional_wants {expr : Parser Expr} (h : Wants expr) (start : Nat) : Wants (conditional expr start) := h.bind

/-! ## What a step makes -/

def Makes (P : α → Prop) (step : Parser α) : Prop := ∀ c a c', step c = .ok a c' → P a

namespace Makes
variable {P : β → Prop}

theorem bind {step : Parser α} {f : α → Parser β} (h : ∀ a, Makes P (f a)) : Makes P (step >>= f) := by
  intro c b c' hok
  change EStateM.bind step f c = _ at hok
  unfold EStateM.bind at hok
  cases hs : step c with
  | error e c₁ =>
    rw [hs] at hok
    cases hok
  | ok a c₁ =>
    rw [hs] at hok
    exact h a c₁ b c' hok

theorem pure {b : β} (h : P b) : Makes P (Pure.pure b) := by
  rintro _ _ _ ⟨⟩
  exact h

theorem throw {e : ParseError} : Makes P (MonadExcept.throw e) := nofun

end Makes

theorem integer_makes : Makes Expr.NotCall integer := by
  apply Makes.bind
  intro start
  apply Makes.bind
  intro digits
  apply Makes.bind
  intro span
  split
  · exact .bind fun _ => .pure nofun
  · exact .throw

theorem variableName_makes : Makes Expr.NotCall variableName :=
  .bind fun _ => .bind fun _ => .bind fun _ => .bind fun _ => .pure nofun

/-! ## Steps where the text goes on -/

section
variable {t : List Char}

/-- Where the text goes on, a step does the same as before, or it has come to the end of the text and may do something
else there, of which `R` says what it has in common with what was done before; and it fails again if it has failed
with a fault that more text does not mend. -/
def Persists (t : List Char) (R : α → α → Prop) (step step' : Parser α) (c : Cursor) : Prop :=
  match step c with
  | .ok a c' => c'.rest.length ≤ c.rest.length ∧ (step' (c.extend t) = .ok a (c'.extend t) ∨
      c'.rest = [] ∧ R a a ∧ ∀ a' c'', step' (c.extend t) = .ok a' c'' → R a a')
  | .error e _ => e.fault.IsEnd ∨ ∃ e' c', step' (c.extend t) = .error e' c'

abbrev Settles (t : List Char) : Parser α → Parser α → Cursor → Prop := Persists t fun _ _ => False

def Loose (e e' : Expr) : Prop := e.NotCall ∧ e'.NotCall

/-- What follows a step that has come to the end of a text: it stays there, and goes on alike from all that the step
might have made, or it fails and fails alike. -/
def Follows (R : α → α → Prop) (S : β → β → Prop) (f f' : α → Parser β) (a : α) (c : Cursor) : Prop :=
  match f a c with
  | .ok b c' => c'.rest = [] ∧ S b b ∧ ∀ a' c₁ b' c₂, R a a' → f' a' c₁ = .ok b' c₂ → S b b'
  | .error e _ => e.fault.IsEnd ∨ ∀ a' c₁, R a a' → ∃ e' c₂, f' a' c₁ = .error e' c₂

theorem Follows.of_ok {R : α → α → Prop} {S : β → β → Prop} {f f' : α → Parser β} {a : α} {b : β}
    (hok : f a c = .ok b c) (hc : c.rest = []) (hS : S b b)
    (hf : ∀ a' c₁ b' c₂, R a a' → f' a' c₁ = .ok b' c₂ → S b b') : Follows R S f f' a c := by
  unfold Follows
  rw [hok]
  exact ⟨hc, hS, hf⟩

theorem Follows.of_error {R : α → α → Prop} {S : β → β → Prop} {f f' : α → Parser β} {a : α}
    (h : ∃ e c', f a c = .error e c') (hf : ∀ a' c₁, R a a' → ∃ e c₂, f' a' c₁ = .error e c₂) :
    Follows R S f f' a c := by
  obtain ⟨e, c', herror⟩ := h
  unfold Follows
  rw [herror]
  exact .inr hf

namespace Persists
variable {R : α → α → Prop} {S : β → β → Prop}

theorem bind {step step' : Parser α} {f f' : α → Parser β} (h : Persists t R step step' c)
    (hf : ∀ a c', step c = .ok a c' → c'.rest.length ≤ c.rest.length → Persists t S (f a) (f' a) c')
    (hend : ∀ a c', c'.rest = [] → R a a → Follows R S f f' a c') :
    Persists t S (step >>= f) (step' >>= f') c := by
  change match EStateM.bind step f c with
    | .ok b c' => c'.rest.length ≤ c.rest.length ∧ (EStateM.bind step' f' (c.extend t) = .ok b (c'.extend t) ∨
        c'.rest = [] ∧ S b b ∧ ∀ b' c'', EStateM.bind step' f' (c.extend t) = .ok b' c'' → S b b')
    | .error e _ => e.fault.IsEnd ∨ ∃ e' c', EStateM.bind step' f' (c.extend t) = .error e' c'
  unfold Persists at h
  unfold EStateM.bind
  cases hs : step c with
  | error e c' =>
    rw [hs] at h
    rcases h with h | ⟨e', c'', h⟩
    · exact .inl h
    · exact .inr ⟨e', c'', by rw [h]⟩
  | ok a c' =>
    rw [hs] at h
    obtain ⟨hlen, hsame | ⟨hc', hR, hgrown⟩⟩ := h
    · have hrest := hf a c' hs hlen
      unfold Persists at hrest
      rw [hsame]
      dsimp only
      cases hs' : f a c' with
      | error e c'' => rwa [hs'] at hrest
      | ok b c'' =>
        rw [hs'] at hrest
        exact ⟨Nat.le_trans hrest.1 hlen, hrest.2⟩
    · have hrest := hend a c' hc' hR
      unfold Follows at hrest
      dsimp only
      cases hs' : f a c' with
      | error e c'' =>
        rw [hs'] at hrest
        rcases hrest with hrest | hrest
        · exact .inl hrest
        · right
          cases hext : step' (c.extend t) with
          | error e' c₁ => exact ⟨e', c₁, rfl⟩
          | ok a' c₁ => exact hrest a' c₁ (hgrown a' c₁ hext)
      | ok b c'' =>
        rw [hs'] at hrest
        obtain ⟨hc'', hS, hsame⟩ := hrest
        refine ⟨by rw [hc'']; exact Nat.zero_le _, .inr ⟨hc'', hS, ?_⟩⟩
        intro b' c₂ hext
        cases hstep : step' (c.extend t) with
        | error e' c₁ =>
          rw [hstep] at hext
          cases hext
        | ok a' c₁ =>
          rw [hstep] at hext
          exact hsame a' c₁ b' c₂ (hgrown a' c₁ hstep) hext

/-- After a step that settles, the next one persists or not on its own. -/
theorem settled_bind {step step' : Parser α} {f f' : α → Parser β} (h : Settles t step step' c)
    (hf : ∀ a c', step c = .ok a c' → c'.rest.length ≤ c.rest.length → Persists t S (f a) (f' a) c') :
    Persists t S (step >>= f) (step' >>= f') c := h.bind hf nofun

/-- Where the next step wants more text, it does not matter what the first does at the end of the text. -/
theorem bind_wants {step step' : Parser α} {f f' : α → Parser β} (h : Persists t R step step' c)
    (hend : ∀ a, Wants (f a))
    (hf : ∀ a c', step c = .ok a c' → c'.rest.length ≤ c.rest.length → Persists t S (f a) (f' a) c') :
    Persists t S (step >>= f) (step' >>= f') c := by
  apply h.bind hf
  intro a c' hc' _
  obtain ⟨e, c'', hs, he⟩ := hend a c' hc'
  unfold Follows
  rw [hs]
  exact .inl he

theorem of_settles {step step' : Parser α} (h : Settles t step step' c) : Persists t R step step' c := by
  unfold Settles Persists at h
  unfold Persists
  cases hs : step c with
  | error e c' =>
    rw [hs] at h
    exact h
  | ok a c' =>
    rw [hs] at h
    obtain ⟨hlen, hsame | ⟨-, hfalse, -⟩⟩ := h
    · exact ⟨hlen, .inl hsame⟩
    · exact hfalse.elim

/-- Where the next step stays and succeeds at the end of the text, it does not matter what the first does there. -/
theorem bind_still {step step' : Parser α} {f f' : α → Parser β} (h : Persists t R step step' c)
    (hf : ∀ a c', step c = .ok a c' → c'.rest.length ≤ c.rest.length →
      Persists t (fun _ _ => True) (f a) (f' a) c')
    (hend : ∀ a c', c'.rest = [] → ∃ b, f a c' = .ok b c') :
    Persists t (fun _ _ => True) (step >>= f) (step' >>= f') c := by
  apply h.bind hf
  intro a c' hc' _
  obtain ⟨b, hok⟩ := hend a c' hc'
  exact .of_ok hok hc' trivial fun _ _ _ _ _ _ => trivial

/-- What all results of two steps have in common they have in common at the end of the text. -/
theorem and_makes {step step' : Parser α} {P : α → Prop} (h : Persists t (fun _ _ => True) step step' c)
    (hs : Makes P step) (hs' : Makes P step') : Persists t (fun a a' => P a ∧ P a') step step' c := by
  unfold Persists at h ⊢
  cases hstep : step c with
  | error e c' =>
    rw [hstep] at h
    exact h
  | ok a c' =>
    rw [hstep] at h
    obtain ⟨hlen, hsame | ⟨hc', -, -⟩⟩ := h
    · exact ⟨hlen, .inl hsame⟩
    · have ha := hs c a c' hstep
      exact ⟨hlen, .inr ⟨hc', ⟨ha, ha⟩, fun a' c'' hstep' => ⟨ha, hs' _ a' c'' hstep'⟩⟩⟩

theorem of_wants {step step' : Parser α} (h : Wants step) (hc : c.rest = []) : Persists t R step step' c := by
  obtain ⟨e, c', hs, hend⟩ := h c hc
  unfold Persists
  rw [hs]
  exact .inl hend

theorem pure {a : α} : Persists t R (Pure.pure a) (Pure.pure a) c := ⟨Nat.le_refl _, .inl rfl⟩

theorem of_end {step step' : Parser α} {a : α} (hc : c.rest = []) (hs : step c = .ok a c) :
    Persists t (fun _ _ => True) step step' c := by
  unfold Persists
  rw [hs]
  exact ⟨Nat.le_refl _, .inr ⟨hc, trivial, fun _ _ _ => trivial⟩⟩

theorem throw {e e' : ParseError} : Persists t R (MonadExcept.throw e : Parser α) (MonadExcept.throw e') c :=
  .inr ⟨e', _, rfl⟩

theorem get_bind {f f' : Cursor → Parser α} (h : Persists t R (f c) (f' (c.extend t)) c) :
    Persists t R (get >>= f) (get >>= f') c := h

theorem offset_bind {f f' : Nat → Parser α} (h : Persists t R (f c.offset) (f' c.offset) c) :
    Persists t R (offset >>= f) (offset >>= f') c := h

theorem spanFrom_bind {start : Nat} {f f' : Span → Parser α}
    (h : Persists t R (f (c.spanFrom start)) (f' (c.spanFrom start)) c) :
    Persists t R (spanFrom start >>= f) (spanFrom start >>= f') c := h

theorem step_peek {x : Char} {f f' : Option Char → Parser α} (hx : c.rest.head? = some x)
    (h : Persists t R (f (some x)) (f' (some x)) c) : Persists t R (peek? >>= f) (peek? >>= f') c := by
  obtain ⟨offset, _ | ⟨y, rest⟩⟩ := c
  · cases hx
  · cases hx
    exact h

/-- A step that looks at the next character, and fails where there is none. -/
theorem peek_bind {f f' : Option Char → Parser α} (hnone : Wants (f none))
    (h : ∀ x, c.rest.head? = some x → Persists t R (f (some x)) (f' (some x)) c) :
    Persists t R (peek? >>= f) (peek? >>= f') c := by
  cases hx : c.rest.head? with
  | none => exact .of_wants hnone.peek_bind (List.head?_eq_none_iff.mp hx)
  | some x => exact step_peek hx (h x hx)

theorem advance {x : Char} (hx : c.rest.head? = some x) : Settles t advance advance c := by
  obtain ⟨offset, _ | ⟨y, rest⟩⟩ := c
  · cases hx
  · exact ⟨Nat.le_succ _, .inl rfl⟩

theorem run (p : Char → Bool) : Persists t (· <+: ·) (run p) (run p) c := by
  refine ⟨length_skip_le p c, ?_⟩
  by_cases hrest : (c.skip p).rest = []
  · refine .inr ⟨hrest, List.prefix_rfl, ?_⟩
    rintro _ _ ⟨⟩
    exact Cursor.takeWhile_grows hrest
  · obtain ⟨htake, hskip⟩ := Cursor.skip_extend (t := t) hrest
    left
    change EStateM.Result.ok ((c.rest ++ t).takeWhile p) ((c.extend t).skip p) = _
    rw [htake, hskip]

theorem skipBlanks : Persists t (fun _ _ => True) skipBlanks skipBlanks c := by
  refine ⟨length_skip_le isBlank c, ?_⟩
  by_cases hrest : (c.skip isBlank).rest = []
  · exact .inr ⟨hrest, trivial, fun _ _ _ => trivial⟩
  · exact .inl (congrArg (EStateM.Result.ok ()) (Cursor.skip_extend hrest).2)

end Persists

/-! ## Tokens -/

theorem unexpected_persists {R : α → α → Prop} (expected : Expectation) :
    Persists t R (unexpected expected) (unexpected expected) c := by
  obtain ⟨offset, _ | ⟨x, rest⟩⟩ := c
  · exact .inl ⟨expected, rfl⟩
  · exact .inr ⟨_, _, rfl⟩

theorem tokenEnd_persists (opening : Bool) :
    Persists t (fun _ _ => True) (tokenEnd opening) (tokenEnd opening) c := by
  obtain ⟨offset, _ | ⟨x, rest⟩⟩ := c
  · exact ⟨Nat.le_refl _, .inr ⟨rfl, trivial, fun _ _ _ => trivial⟩⟩
  · apply Persists.step_peek (x := x) rfl
    dsimp only
    split
    · exact .pure
    · exact unexpected_persists _

theorem char_persists (x : Char) (expected : Expectation) : Settles t (char x expected) (char x expected) c := by
  apply Persists.peek_bind .unexpected
  intro y hy
  split
  · exact .advance hy
  · exact unexpected_persists _

theorem identifier_persists (expected : Expectation) (opening : Bool) :
    Persists t (fun _ _ => True) (identifier expected opening) (identifier expected opening) c := by
  obtain ⟨offset, _ | ⟨x, rest⟩⟩ := c
  · exact .of_wants (identifier_wants _ _) rfl
  · apply Persists.get_bind
    dsimp only [Cursor.extend, List.cons_append]
    split
    · apply (Persists.run isNameChar).bind_still
      · intro name c₁ _ _
        exact (tokenEnd_persists opening).bind_still (fun _ _ _ _ => .pure) fun _ _ _ => ⟨_, rfl⟩
      · intro name c₁ hc₁
        exact ⟨_, bind_of_ok (tokenEnd_at_end opening c₁ hc₁)⟩
    · exact .throw

theorem length_lt_of_advance {x : Char} {c' : Cursor} (hx : c.rest.head? = some x) (h : advance c = .ok () c') :
    c'.rest.length < c.rest.length := by
  obtain ⟨offset, _ | ⟨y, rest⟩⟩ := c
  · cases hx
  · cases h
    exact Nat.lt_succ_self _

/-- A name takes characters off the text. -/
theorem length_lt_of_identifier {expected : Expectation} {opening : Bool} {x : String} {c' : Cursor}
    (h : identifier expected opening c = .ok x c') : c'.rest.length < c.rest.length :=
  (identifier_takes expected opening).length_lt (fun _ _ _ hx => hx.2.1.ne_nil) h

/-- The digits of a greater number begin with those of one that is too great already. -/
theorem digitsValue_mono {ds es : List Char} (h : ds <+: es) : digitsValue ds ≤ digitsValue es := by
  obtain ⟨more, rfl⟩ := h
  unfold digitsValue
  rw [List.foldl_append]
  generalize ds.foldl _ 0 = n
  induction more generalizing n with
  | nil => exact Nat.le_refl _
  | cons d more ih =>
    apply Nat.le_trans _ (ih _)
    dsimp only
    omega

theorem integer_persists : Persists t Loose integer integer c := by
  apply Persists.and_makes _ integer_makes integer_makes
  apply Persists.offset_bind
  apply (Persists.run Char.isDigit).bind
  · intro digits c₁ _ _
    apply Persists.spanFrom_bind
    split
    · exact (tokenEnd_persists false).bind_still (fun _ _ _ _ => .pure) fun _ _ _ => ⟨_, rfl⟩
    · exact .throw
  · intro digits c₁ hc₁ _
    by_cases hlt : digitsValue digits < 1 <<< 63
    · apply Follows.of_ok _ hc₁ trivial fun _ _ _ _ _ _ => trivial
      · exact .int (Int64.ofNat (digitsValue digits)) (c₁.spanFrom c.offset)
      · simp only [if_pos hlt]
        exact bind_of_ok (tokenEnd_at_end false c₁ hc₁)
    · apply Follows.of_error
      · simp only [if_neg hlt]
        exact ⟨_, _, rfl⟩
      · intro digits' c₂ hprefix
        have hlt' : ¬ digitsValue digits' < 1 <<< 63 :=
          fun h => hlt (Nat.lt_of_le_of_lt (digitsValue_mono hprefix) h)
        simp only [if_neg hlt']
        exact ⟨_, _, rfl⟩

theorem variableName_persists : Persists t Loose variableName variableName c := by
  apply Persists.and_makes _ variableName_makes variableName_makes
  apply Persists.offset_bind
  apply (Persists.run isNameChar).bind_still
  · intro name c₁ _ _
    exact (tokenEnd_persists false).bind_still (fun _ _ _ _ => .spanFrom_bind .pure) fun _ _ _ => ⟨_, rfl⟩
  · intro name c₁ hc₁
    exact ⟨_, bind_of_ok (tokenEnd_at_end false c₁ hc₁)⟩

theorem params_persists (d k : Nat) : ∀ {c : Cursor}, c.rest.length < k →
    Settles t (params k) (params (d + k)) c := by
  induction k with
  | zero => exact fun h => absurd h (Nat.not_lt_zero _)
  | succ k ih =>
    intro c hk
    change Settles t (params (k + 1)) (params (d + k + 1)) c
    apply Persists.skipBlanks.bind_wants fun _ => .peek_bind (identifier_wants _ _).bind
    intro _ c₁ _ hlen
    apply Persists.peek_bind (identifier_wants _ _).bind
    intro x hx
    split
    · exact (Persists.advance hx).settled_bind fun _ _ _ _ => .pure
    · apply (identifier_persists _ _).bind_wants fun _ => (params_wants k).bind
      intro name c₂ hname _
      have hlt := length_lt_of_identifier hname
      exact (ih (by omega)).settled_bind fun _ _ _ _ => .pure

/-! ## Forms -/

section Forms
variable {n d : Nat} {expr expr' : Parser Expr} (hwants : Wants expr)
  (htakes : ∀ {c c' : Cursor} {e : Expr}, expr c = .ok e c' → c'.rest.length < c.rest.length)
  (hexpr : ∀ {c : Cursor}, c.rest.length < n → Persists t Loose expr expr' c)
include hexpr

include htakes in
theorem untilClose_persists (k : Nat) (hkn : k ≤ n) :
    ∀ {c : Cursor}, c.rest.length < k → Settles t (untilClose expr k) (untilClose expr' (d + k)) c := by
  induction k with
  | zero => exact fun h => absurd h (Nat.not_lt_zero _)
  | succ k ih =>
    intro c hk
    change Settles t (untilClose expr (k + 1)) (untilClose expr' (d + k + 1)) c
    apply Persists.skipBlanks.bind_wants fun _ => .peek_bind .unexpected
    intro _ c₁ _ hlen
    apply Persists.peek_bind .unexpected
    intro x hx
    dsimp only
    split
    · exact (Persists.advance hx).settled_bind fun _ _ _ _ => .pure
    · apply (hexpr (by omega)).bind_wants fun _ => (untilClose_wants expr k).bind
      intro e c₂ he _
      have hlt := htakes he
      exact (ih (by omega) (by omega)).settled_bind fun _ _ _ _ => .pure

include htakes in
theorem definition_persists (start : Nat) (hc : c.rest.length < n) :
    Settles t (definition expr n start) (definition expr' (d + n) start) c := by
  apply Persists.skipBlanks.bind_wants fun _ => (identifier_wants _ _).bind
  intro _ c₁ _ h₁
  apply (identifier_persists _ _).bind_wants fun _ => .skipBlanks_bind (char_wants _ _).bind
  intro name c₂ _ h₂
  apply Persists.skipBlanks.bind_wants fun _ => (char_wants _ _).bind
  intro _ c₃ _ h₃
  apply (char_persists _ _).settled_bind
  intro _ c₄ _ h₄
  apply (params_persists d n (by omega)).settled_bind
  intro ps c₅ _ h₅
  apply (untilClose_persists htakes hexpr n (Nat.le_refl n) (by omega)).settled_bind
  intro body c₆ _ _
  apply Persists.spanFrom_bind
  split
  · exact .throw
  · exact .pure

include hwants in
theorem conditional_persists (start : Nat) (hc : c.rest.length < n) :
    Settles t (conditional expr start) (conditional expr' start) c := by
  have hclose {test : Call} {yes : Expr} (no : Option Expr) {c' : Cursor} :
      let step : Parser Expr := do
        char ')' .closeConditional
        return Expr.branch test yes no (← spanFrom start)
      Settles t step step c' :=
    (char_persists _ _).settled_bind fun _ _ _ _ => .spanFrom_bind .pure
  apply (hexpr hc).bind
  · intro test c₁ _ h₁
    cases test with
    | call test s =>
      apply (hexpr (by omega)).bind_wants fun _ => .skipBlanks_bind (.peek_bind hwants.bind)
      intro yes c₂ _ h₂
      apply Persists.skipBlanks.bind_wants fun _ => .peek_bind hwants.bind
      intro _ c₃ _ h₃
      apply Persists.peek_bind hwants.bind
      intro x hx
      split
      · exact hclose none
      · apply (hexpr (by omega)).bind_wants fun _ => .skipBlanks_bind (char_wants _ _).bind
        intro e c₄ _ _
        exact Persists.skipBlanks.bind_wants (fun _ => (char_wants _ _).bind) fun _ _ _ _ => hclose (some e)
    | _ => exact .throw
  · -- What is no call at the end of the text is none where the text goes on.
    intro test c₁ _ hloose
    apply Follows.of_error
    · cases test with
      | call test s => exact absurd rfl (hloose.1 test s)
      | _ => exact ⟨_, _, rfl⟩
    · intro test' c₂ hloose'
      cases test' with
      | call test s => exact absurd rfl (hloose'.2 test s)
      | _ => exact ⟨_, _, rfl⟩

include hwants htakes in
theorem form_persists (hopen : c.rest.head? = some '(') (hc : c.rest.length < n + 1) :
    Settles t (form expr n) (form expr' (d + n)) c := by
  apply Persists.offset_bind
  apply (Persists.advance hopen).settled_bind
  intro _ c₁ h₁ _
  have hlt := length_lt_of_advance hopen h₁
  apply Persists.skipBlanks.bind_wants fun _ => .peek_bind .unexpected
  intro _ c₂ _ h₂
  apply Persists.peek_bind .unexpected
  intro x hx
  dsimp only
  split
  · have hafter (head : String) : Wants (do
        if head == "def" then definition expr n c.offset
        else if head == "if" then conditional expr c.offset
        else
          let args ← untilClose expr n
          let span ← spanFrom c.offset
          return Expr.call ⟨head, args, span⟩ span) := by
      split
      · exact definition_wants expr n _
      split
      · exact conditional_wants hwants _
      · exact (untilClose_wants expr n).bind
    apply (Persists.run isNameChar).bind_wants fun _ => .tokenEnd_bind (hafter _)
    intro name c₃ _ h₃
    apply (tokenEnd_persists true).bind_wants fun _ => hafter _
    intro _ c₄ _ h₄
    split
    · exact definition_persists htakes hexpr _ (by omega)
    split
    · exact conditional_persists hwants hexpr _ (by omega)
    · apply (untilClose_persists htakes hexpr n (Nat.le_refl n) (by omega)).settled_bind
      intro args c₅ _ _
      exact .spanFrom_bind .pure
  · exact unexpected_persists _

end Forms

theorem exprWithin_persists (d n : Nat) :
    ∀ {c : Cursor}, c.rest.length < n → Persists t Loose (exprWithin n) (exprWithin (d + n)) c := by
  induction n with
  | zero => exact fun h => absurd h (Nat.not_lt_zero _)
  | succ n ih =>
    intro c hc
    change Persists t Loose (exprWithin (n + 1)) (exprWithin (d + n + 1)) c
    apply Persists.skipBlanks.bind_wants fun _ => .offset_bind (fun _ => .peek_bind .unexpected)
    intro _ c₁ _ h₁
    apply Persists.offset_bind
    apply Persists.peek_bind .unexpected
    intro x hx
    dsimp only
    split
    case isTrue hopen =>
      obtain rfl : x = '(' := beq_iff_eq.mp hopen
      exact (form_persists (exprWithin_wants n) length_lt_of_exprWithin ih hx (by omega)).of_settles
    split
    · apply (Persists.advance hx).settled_bind
      intro _ c₂ h₂ _
      have hlt := length_lt_of_advance hx h₂
      exact ((ih (by omega)).bind_still (fun _ _ _ _ => .pure) fun _ _ _ => ⟨_, rfl⟩).and_makes
        (.bind fun _ => .pure nofun) (.bind fun _ => .pure nofun)
    split
    · exact integer_persists
    split
    · exact variableName_persists
    · exact unexpected_persists _

theorem length_extend : (c.extend t).rest.length + 1 = t.length + (c.rest.length + 1) := by
  change (c.rest ++ t).length + 1 = _
  rw [List.length_append]
  omega

theorem expr_persists : Persists t Loose expr expr c := by
  apply Persists.get_bind
  rw [length_extend]
  exact exprWithin_persists _ _ (Nat.lt_succ_self _)

theorem programWithin_at_end (n : Nat) (hc : c.rest = []) : programWithin (n + 1) c = .ok [] c := by
  obtain ⟨offset, _⟩ := c
  cases hc
  rfl

theorem programWithin_persists (d n : Nat) : ∀ {c : Cursor}, c.rest.length < n →
    Persists t (fun _ _ => True) (programWithin n) (programWithin (d + n)) c := by
  induction n with
  | zero => exact fun h => absurd h (Nat.not_lt_zero _)
  | succ n ih =>
    intro c hc
    change Persists t _ (programWithin (n + 1)) (programWithin (d + n + 1)) c
    apply Persists.skipBlanks.bind_still
    · intro _ c₁ _ h₁
      by_cases hrest : c₁.rest = []
      · exact .of_end hrest (bind_of_ok (peek_at_end c₁ hrest))
      · obtain ⟨x, rest, hx⟩ := List.exists_cons_of_ne_nil hrest
        obtain ⟨m, rfl⟩ : ∃ m, n = m + 1 := Nat.exists_eq_succ_of_ne_zero (by
          rintro rfl
          simp only [hx, List.length_cons] at h₁
          omega)
        apply Persists.step_peek (x := x) (by rw [hx, List.head?_cons])
        apply expr_persists.bind_still
        · intro e c₂ he _
          have hlt := length_lt_of_expr he
          exact (ih (by omega)).bind_still (fun _ _ _ _ => .pure) fun _ _ _ => ⟨_, rfl⟩
        · intro e c₂ hc₂
          exact ⟨_, bind_of_ok (programWithin_at_end m hc₂)⟩
    · intro _ c₁ hc₁
      exact ⟨[], bind_of_ok (peek_at_end c₁ hc₁)⟩

theorem program_persists : Persists t (fun _ _ => True) program program c := by
  apply Persists.get_bind
  rw [length_extend]
  exact programWithin_persists _ _ (Nat.lt_succ_self _)

end
end Parser

/-! ## Texts -/

/-- Where reading a text has failed, but not for want of text, reading fails however the text goes on; and where it has
failed for want of text, it has done so at the end of the text. -/
theorem parse_error_persists {source : String} {e : ParseError} (h : parse source = .error e) :
    (¬ e.fault.IsEnd → ∀ more, ∃ e', parse (source ++ more) = .error e') ∧
      (e.fault.IsEnd → e.span = .point (byteLength source.toList)) := by
  unfold parse at h
  cases hrun : Parser.program (.ofText source) with
  | ok forms c =>
    rw [hrun] at h
    cases h
  | error f c =>
    rw [hrun] at h
    cases h
    constructor
    · intro hdefinite more
      have hpersists := Parser.program_persists (t := more.toList) (c := .ofText source)
      unfold Parser.Persists at hpersists
      rw [hrun] at hpersists
      obtain ⟨e', c', hrun'⟩ := hpersists.resolve_left hdefinite
      refine ⟨e', ?_⟩
      have htext : Cursor.ofText (source ++ more) = (Cursor.ofText source).extend more.toList := by
        rw [Cursor.ofText, String.toList_append, Cursor.extend, Cursor.ofText]
      rw [parse, htext, hrun']
    · rintro ⟨expected, hend⟩
      have hmoves := Parser.program_moves (c := .ofText source)
      unfold Parser.Moves at hmoves
      rw [hrun] at hmoves
      exact (hmoves.2.at_end (hmoves.1.in_source ⟨[], rfl, rfl⟩) hend).2

/-- A number is no condition, whatever digits may follow it. -/
theorem parse_error_persists_condition :
    parse "(if 1" = .error ⟨.conditionNotCall, ⟨4, 5⟩⟩ ∧ ∃ e, parse ("(if 1" ++ "2 3)") = .error e := by
  have h : parse "(if 1" = .error ⟨.conditionNotCall, ⟨4, 5⟩⟩ := by rfl
  exact ⟨h, (parse_error_persists h).1 nofun "2 3)"⟩

end SmallLisp
