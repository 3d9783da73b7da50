import SmallLisp.Proofs.LocatedGrammar

/-! # What is read is in the grammar

Each step of reading is described by the text that it takes off the front, by what it makes of it and by what it
leaves. A step that reads forms takes a text of the grammar, and the tree that it makes is the tree of that text
with the places of its parts.
-/
namespace SmallLisp

theorem isNameChar_of_isLower {c : Char} (h : c.isLower = true) : isNameChar c = true := by
  simp only [isNameChar, h, Bool.true_or]

theorem isNameChar_of_isOperatorChar {c : Char} (h : isOperatorChar c = true) : isNameChar c = true := by
  simp only [isNameChar, h, Bool.or_true]

namespace Parser
variable {α β : Type} {text : List Char} {o : Nat}

/-! ## Steps -/

/-- What a step that succeeds takes off a text at an offset, what it makes and what it leaves are as described,
and reading goes on at the offset where the text that was taken ends. -/
def Takes (step : Parser α) (o : Nat) (text : List Char) (post : List Char → α → List Char → Prop) : Prop :=
  match step ⟨o, text⟩ with
  | .ok a c => ∃ w, text = w ++ c.rest ∧ c.offset = o + byteLength w ∧ post w a c.rest
  | .error _ _ => True

namespace Takes
variable {post : List Char → α → List Char → Prop}

theorem bind {step : Parser α} {f : α → Parser β} {mid : List Char → α → List Char → Prop}
    {post : List Char → β → List Char → Prop} (h : Takes step o text mid)
    (hf : ∀ w a rest, text = w ++ rest → mid w a rest →
      Takes (f a) (o + byteLength w) rest fun v => post (w ++ v)) :
    Takes (step >>= f) o text post := by
  change match EStateM.bind step f ⟨o, text⟩ with
    | .ok a c => ∃ w, text = w ++ c.rest ∧ c.offset = o + byteLength w ∧ post w a c.rest
    | .error _ _ => True
  unfold EStateM.bind
  unfold Takes at h
  cases hs : step ⟨o, text⟩ with
  | error e c => trivial
  | ok a c =>
    obtain ⟨offset, rest⟩ := c
    rw [hs] at h
    obtain ⟨w, htext, hoffset, hmid⟩ := h
    obtain rfl : offset = o + byteLength w := hoffset
    have hrest := hf w a rest htext hmid
    unfold Takes at hrest
    dsimp only
    cases hs' : f a ⟨o + byteLength w, rest⟩ with
    | error e c => trivial
    | ok b c =>
      rw [hs'] at hrest
      obtain ⟨v, htext', hoffset', hpost⟩ := hrest
      refine ⟨w ++ v, ?_, ?_, hpost⟩
      · rw [htext, htext', List.append_assoc]
      · rw [hoffset', byteLength_append, Nat.add_assoc]

theorem mono {step : Parser α} {mid : List Char → α → List Char → Prop} (h : Takes step o text mid)
    (hp : ∀ w a rest, text = w ++ rest → mid w a rest → post w a rest) : Takes step o text post := by
  unfold Takes at h ⊢
  cases hs : step ⟨o, text⟩ with
  | error e c => trivial
  | ok a c =>
    rw [hs] at h
    obtain ⟨w, htext, hoffset, hmid⟩ := h
    exact ⟨w, htext, hoffset, hp w a _ htext hmid⟩

theorem pure {a : α} (h : post [] a text) : Takes (Pure.pure a) o text post := ⟨[], rfl, rfl, h⟩

theorem throw {e : ParseError} : Takes (MonadExcept.throw e) o text post := trivial

theorem unexpected {expected : Expectation} : Takes (Parser.unexpected expected) o text post := by
  cases text <;> exact trivial

theorem get_bind {f : Cursor → Parser α} (h : Takes (f ⟨o, text⟩) o text post) :
    Takes (get >>= f) o text post := h

theorem peek_bind {f : Option Char → Parser α} (h : Takes (f text.head?) o text post) :
    Takes (peek? >>= f) o text post := h

theorem offset_bind {f : Nat → Parser α} (h : Takes (f o) o text post) : Takes (offset >>= f) o text post := h

theorem spanFrom_bind {start : Nat} {f : Span → Parser α} (h : Takes (f (.ofOffsets start o)) o text post) :
    Takes (spanFrom start >>= f) o text post := h

theorem advance_bind {c : Char} {f : Unit → Parser α} (hc : c.utf8Size = 1)
    (h : Takes (f ()) (o + 1) text fun v => post (c :: v)) : Takes (advance >>= f) o (c :: text) post := by
  have hread : Takes advance o (c :: text) fun w _ rest => w = [c] ∧ rest = text := ⟨[c], rfl, rfl, rfl, rfl⟩
  refine bind hread ?_
  rintro _ _ rest - ⟨rfl, rfl⟩
  rwa [byteLength_cons, hc]

/-- A run that starts with a character of its class is cut off the text. -/
theorem run_bind {p : Char → Bool} {c : Char} {cs : List Char} {f : List Char → Parser α} (hc : p c = true)
    (h : ∀ w rest, cs = w ++ rest → (∀ x ∈ w, p x = true) →
      Takes (f (c :: w)) (o + byteLength (c :: w)) rest fun v => post (c :: w ++ v)) :
    Takes (run p >>= f) o (c :: cs) post := by
  have hread : Takes (run p) o (c :: cs) fun w a rest => w = (c :: cs).takeWhile p ∧ a = w ∧
      rest = (c :: cs).dropWhile p := ⟨_, List.takeWhile_append_dropWhile.symm, rfl, rfl, rfl, rfl⟩
  refine bind hread ?_
  rintro _ _ _ - ⟨rfl, rfl, rfl⟩
  rw [List.takeWhile_cons_of_pos hc, List.dropWhile_cons_of_pos hc]
  exact h _ _ List.takeWhile_append_dropWhile.symm (List.all_eq_true.mp List.all_takeWhile)

theorem skipBlanks_bind {f : Unit → Parser α}
    (h : ∀ b rest, text = b ++ rest → Blanks b → Takes (f ()) (o + byteLength b) rest fun v => post (b ++ v)) :
    Takes (skipBlanks >>= f) o text post := by
  have hread : Takes skipBlanks o text fun w _ _ => Blanks w :=
    ⟨_, List.takeWhile_append_dropWhile.symm, rfl, List.all_eq_true.mp List.all_takeWhile⟩
  exact bind hread fun b _ rest htext hb => h b rest htext hb

theorem tokenEnd_bind {opening : Bool} {f : Unit → Parser α}
    (h : TokenEnds opening text → Takes (f ()) o text post) : Takes (tokenEnd opening >>= f) o text post := by
  have hcheck : Takes (tokenEnd opening) o text fun w _ rest => w = [] ∧ TokenEnds opening text ∧ rest = text := by
    refine peek_bind ?_
    cases text with
    | nil => exact pure ⟨rfl, trivial, rfl⟩
    | cons c cs =>
      dsimp only [List.head?_cons]
      split
      case isTrue hc =>
        refine pure ⟨rfl, ?_, rfl⟩
        simpa only [TokenEnds, Bool.or_eq_true, Bool.and_eq_true, beq_iff_eq, or_assoc] using hc
      case isFalse => exact unexpected
  refine bind hcheck ?_
  rintro _ _ _ - ⟨rfl, hend, rfl⟩
  exact h hend

theorem char_bind {c : Char} {expected : Expectation} {f : Unit → Parser α} (hc : c.utf8Size = 1)
    (h : ∀ rest, text = c :: rest → Takes (f ()) (o + 1) rest fun v => post (c :: v)) :
    Takes (char c expected >>= f) o text post := by
  have hread : Takes (char c expected) o text fun w _ _ => w = [c] := by
    refine peek_bind ?_
    cases text with
    | nil => exact unexpected
    | cons d cs =>
      split
      case isTrue hd =>
        obtain rfl : d = c := by simpa using hd
        exact ⟨[d], rfl, rfl, rfl⟩
      case isFalse => exact unexpected
  refine bind hread ?_
  rintro _ _ rest htext rfl
  rw [byteLength_cons, hc]
  exact h rest htext

end Takes

/-! ## Tokens -/

theorem identifier_takes (expected : Expectation) (opening : Bool) :
    Takes (identifier expected opening) o text fun w x rest =>
      x = String.ofList w ∧ IsIdentifier w ∧ TokenEnds opening rest := by
  refine .get_bind ?_
  cases text with
  | nil => exact .unexpected
  | cons c cs =>
    dsimp only
    split
    case isTrue hc =>
      refine .run_bind (isNameChar_of_isLower hc) fun x rest _ hx => .tokenEnd_bind fun hend => .pure ?_
      rw [List.append_nil]
      exact ⟨rfl, ⟨hc, hx⟩, hend⟩
    case isFalse => exact .throw

theorem integer_takes {c : Char} {cs : List Char} (hc : c.isDigit = true) :
    Takes integer o (c :: cs) fun w e rest => PartAt o w (.form e) rest := by
  refine .offset_bind (.run_bind hc fun ds rest _ hds => .spanFrom_bind ?_)
  split
  case isTrue hlt =>
    refine .tokenEnd_bind fun hend => .pure ?_
    rw [List.append_nil]
    exact .int ⟨List.cons_ne_nil _ _, List.forall_mem_cons.mpr ⟨hc, hds⟩, Nat.le_sub_one_of_lt hlt⟩ hend
  case isFalse => exact .throw

theorem variableName_takes {c : Char} {cs : List Char} (hc : c.isLower = true) :
    Takes variableName o (c :: cs) fun w e rest => PartAt o w (.form e) rest := by
  refine .offset_bind (.run_bind (isNameChar_of_isLower hc) fun x rest _ hx => ?_)
  refine .tokenEnd_bind fun hend => .spanFrom_bind (.pure ?_)
  rw [List.append_nil]
  exact .name ⟨hc, hx⟩ hend

theorem params_takes (n : Nat) : ∀ {o text}, Takes (params n) o text fun w xs _ => Params w xs := by
  induction n with
  | zero => exact .unexpected
  | succ n ih =>
    refine .skipBlanks_bind fun b s _ hb => .peek_bind ?_
    split
    case isTrue hs =>
      obtain ⟨s, rfl⟩ : ∃ s', s = ')' :: s' := by simpa [List.head?_eq_some_iff] using hs
      exact .advance_bind rfl (.pure (.close hb))
    case isFalse =>
      refine .bind (identifier_takes _ _) ?_
      rintro x _ rest - ⟨rfl, hx, hend⟩
      refine .bind ih ?_
      rintro w xs rest rfl hw
      refine .pure ?_
      rw [List.append_nil, ← List.append_assoc]
      exact .cons hb hx ((tokenEnds_append hw.ne_nil rest).mp hend) hw

/-! ## Forms -/

def TakesForms (expr : Parser Expr) : Prop := ∀ o text, Takes expr o text (SpacedAt o)

section
variable {expr : Parser Expr}

theorem untilClose_takes (h : TakesForms expr) (n : Nat) :
    ∀ {o text}, Takes (untilClose expr n) o text fun w es => PartAt o w (.items es) := by
  induction n with
  | zero => exact .unexpected
  | succ n ih =>
    intro o text
    refine .skipBlanks_bind fun b s _ hb => .peek_bind ?_
    cases s with
    | nil => exact .unexpected
    | cons c s =>
      dsimp only [List.head?_cons]
      split
      case isTrue hc =>
        obtain rfl : c = ')' := by simpa using hc
        exact .advance_bind rfl (.pure (.close hb))
      case isFalse =>
        refine .bind (h _ _) fun w e rest _ he => .bind ih ?_
        rintro ws es rest rfl hes
        refine .pure ?_
        rw [List.append_nil, ← List.append_assoc]
        refine (he.blanks_append hb).item ?_
        rwa [byteLength_append, ← Nat.add_assoc]

/-- A definition, where its parenthesis and its head are read already. -/
theorem definition_takes (h : TakesForms expr) (n : Nat) {b₁ : List Char} (hb₁ : Blanks b₁)
    (hdef : TokenEnds true text) : Takes (definition expr n o) (o + 1 + byteLength b₁ + 3) text fun w e =>
      PartAt o ('(' :: (b₁ ++ 'd' :: 'e' :: 'f' :: w)) (.form e) := by
  refine .skipBlanks_bind fun b₂ s₁ htext hb₂ => .bind (identifier_takes _ _) ?_
  rintro x _ s₂ rfl ⟨rfl, hx, hend⟩
  refine .skipBlanks_bind fun b₃ s₃ hs₂ hb₃ => .char_bind rfl ?_
  rintro s₄ rfl
  refine .bind (params_takes n) fun ps params s₅ _ hps => .bind (untilClose_takes h n) fun w body rest _ hbody => ?_
  refine .spanFrom_bind ?_
  split
  case isTrue => exact .throw
  case isFalse hne =>
    have hdef' : TokenEnds true (b₂ ++ x) := by
      rwa [htext, ← List.append_assoc, tokenEnds_append (by simp [hx.ne_nil])] at hdef
    have hend' : TokenEnds true (b₃ ++ ['(']) := by
      rwa [hs₂, List.append_cons, tokenEnds_append (by simp)] at hend
    refine .pure ?_
    rw [List.append_nil]
    refine .define hb₁ hdef' hb₂ hx hend' hb₃ hps hbody (by simpa using hne) (ofOffsets_eq_spanAt ?_)
    simp (disch := decide) only [byteLength_append, byteLength_cons_ascii]
    omega

/-- A conditional, where its parenthesis and its head are read already. -/
theorem conditional_takes (h : TakesForms expr) {b₁ : List Char} (hb₁ : Blanks b₁) (hif : TokenEnds true text) :
    Takes (conditional expr o) (o + 1 + byteLength b₁ + 2) text fun w e =>
      PartAt o ('(' :: (b₁ ++ 'i' :: 'f' :: w)) (.form e) := by
  refine .bind (h _ _) ?_
  rintro _ test s₁ htext ⟨b₂, t, rfl, hb₂, ht⟩
  cases test with
  | call c st =>
    refine .bind (h _ _) fun w yes s₂ hs₁ hyes => .skipBlanks_bind fun b₃ s₃ hs₂ hb₃ => .peek_bind ?_
    have hif' : TokenEnds true (b₂ ++ t) := by
      rwa [htext, tokenEnds_append (by simp [ht.ne_nil])] at hif
    -- both ways to go on end in the same parenthesis, after what makes `s₂` the rest of the items
    have close {no : Option Expr} {v s₄ : List Char} {stop : Nat}
        (hstop : stop = o + 1 + byteLength b₁ + 2 + byteLength (b₂ ++ t) + byteLength w + byteLength v)
        (hno : ∀ rest, s₄ = ')' :: rest → s₂ = v ++ ')' :: rest ∧
          PartAt (o + 1 + byteLength b₁ + 2 + byteLength (b₂ ++ t) + byteLength w) (v ++ [')'])
            (.items no.toList) rest) :
        Takes (do
          char ')' .closeConditional
          return Expr.branch c yes no (← spanFrom o)) stop s₄ fun u e =>
            PartAt o ('(' :: (b₁ ++ 'i' :: 'f' :: (b₂ ++ t ++ (w ++ (v ++ u))))) (.form e) := by
      refine .char_bind rfl fun rest hs₄ => .spanFrom_bind (.pure ?_)
      obtain ⟨rfl, hitems⟩ := hno rest hs₄
      subst hs₁
      rw [List.append_cons] at ht hyes
      rw [← List.append_assoc] at ht
      have hw := hyes.item hitems
      rw [byteLength_append, ← Nat.add_assoc] at hw
      rw [List.append_assoc b₂]
      refine .branch hb₁ hif' hb₂ ht hw (ofOffsets_eq_spanAt ?_)
      simp (disch := decide) only [hstop, byteLength_append, byteLength_cons_ascii, byteLength_nil]
      omega
    split
    · refine close rfl fun rest hs₃ => ⟨?_, .close hb₃⟩
      rw [hs₂, hs₃]
    · refine .bind (h _ _) fun v no s₄ hs₃ hno => .skipBlanks_bind fun b₄ s₅ hs₄ hb₄ => ?_
      rw [pure_bind]
      have hclose := @close (some no) (b₃ ++ v ++ b₄) s₅ _ rfl fun rest hs₅ => ?_
      · simpa only [List.append_assoc, byteLength_append, Nat.add_assoc] using hclose
      · subst hs₅
        refine ⟨by simp only [hs₂, hs₃, hs₄, List.append_assoc], ?_⟩
        rw [hs₄, List.append_cons] at hno
        rw [List.append_assoc]
        exact (hno.blanks_append hb₃).item (.close hb₄)
  | int _ _ | name _ _ | ref _ _ | define _ _ | branch _ _ _ _ => exact .throw

theorem form_takes (h : TakesForms expr) (n : Nat) :
    Takes (form expr n) o ('(' :: text) fun w e => PartAt o w (.form e) := by
  refine .offset_bind (.advance_bind rfl (.skipBlanks_bind fun b s _ hb => .peek_bind ?_))
  cases s with
  | nil => exact .unexpected
  | cons c cs =>
    dsimp only [List.head?_cons]
    split
    case isFalse => exact .unexpected
    case isTrue hc =>
      have hname : isNameChar c = true := by
        rcases Bool.or_eq_true_iff.mp hc with hc | hc
        · exact isNameChar_of_isLower hc
        · exact isNameChar_of_isOperatorChar hc
      refine .run_bind hname fun x rest _ hx => .tokenEnd_bind fun hend => ?_
      have hhead (w : String) : c :: x = w.toList ↔ String.ofList (c :: x) == w := by
        rw [beq_iff_eq, ← String.toList_inj, String.toList_ofList]
      split
      case isTrue hdef =>
        rw [show c :: x = ['d', 'e', 'f'] from (hhead "def").mpr hdef]
        exact definition_takes h n hb hend
      split
      case isTrue hif =>
        rw [show c :: x = ['i', 'f'] from (hhead "if").mpr hif]
        exact conditional_takes h hb hend
      case isFalse hdef hif =>
        refine .bind (untilClose_takes h n) ?_
        rintro w args rest rfl hargs
        refine .spanFrom_bind (.pure ?_)
        rw [List.append_nil]
        rw [tokenEnds_append hargs.ne_nil] at hend
        refine .call hb ⟨by simpa using hc, hx⟩ (mt (hhead "def").mp hdef) (mt (hhead "if").mp hif) hend hargs
          (ofOffsets_eq_spanAt ?_)
        simp (disch := decide) only [byteLength_append, byteLength_cons_ascii]
        omega

end

theorem exprWithin_takes (n : Nat) : TakesForms (exprWithin n) := by
  induction n with
  | zero => exact fun _ _ => .unexpected
  | succ n ih =>
    intro o text
    refine .skipBlanks_bind fun b s _ hb => .offset_bind (.peek_bind ?_)
    -- what is read after the blanks is a form without blanks in front
    have hblanks {step : Parser Expr}
        (h : Takes step (o + byteLength b) s fun w e => PartAt (o + byteLength b) w (.form e)) :
        Takes step (o + byteLength b) s fun w => SpacedAt o (b ++ w) :=
      h.mono fun w e rest _ hform => ⟨b, w, rfl, hb, hform⟩
    cases s with
    | nil => exact .unexpected
    | cons c cs =>
      refine hblanks ?_
      dsimp only [List.head?_cons]
      split
      case isTrue hc =>
        obtain rfl : c = '(' := by simpa using hc
        exact form_takes ih n
      split
      case isTrue hc =>
        obtain rfl : c = '&' := by simpa using hc
        refine .advance_bind rfl (.bind (ih _ _) ?_)
        rintro _ target rest - ⟨b', w, rfl, hb', htarget⟩
        refine .pure ?_
        rw [List.append_nil, htarget.span_eq, cover_spanAt '&' rfl]
        exact .ref hb' htarget
      split
      case isTrue hc => exact integer_takes hc
      split
      case isTrue hc => exact variableName_takes hc
      case isFalse => exact .unexpected

theorem programWithin_takes (n : Nat) :
    ∀ {o text}, Takes (programWithin n) o text fun w es rest => rest = [] ∧ FormsAt o w es := by
  induction n with
  | zero => exact .unexpected
  | succ n ih =>
    intro o text
    refine .skipBlanks_bind fun b s _ hb => .peek_bind ?_
    split
    case isTrue hs =>
      obtain rfl : s = [] := by simpa using hs
      refine .pure ⟨rfl, ?_⟩
      rw [List.append_nil]
      exact .nil hb
    case isFalse =>
      refine .bind (.get_bind (exprWithin_takes _ _ s)) fun w e rest _ he => .bind ih ?_
      rintro ws es _ rfl ⟨rfl, hes⟩
      refine .pure ⟨rfl, ?_⟩
      rw [List.append_nil] at he ⊢
      rw [← List.append_assoc]
      refine (he.blanks_append hb).cons ?_
      rwa [byteLength_append, ← Nat.add_assoc]

theorem program_ofText (source : String) :
    program (.ofText source) = programWithin (source.toList.length + 1) ⟨0, source.toList⟩ := rfl

end Parser

/-- A text that is read is a sequence of forms of the grammar, and the trees that are read are its trees with
their places. -/
theorem formsAt_of_parse {source : String} {forms : List Expr} (h : parse source = .ok forms) :
    FormsAt 0 source.toList forms := by
  have htakes := @Parser.programWithin_takes (source.toList.length + 1) 0 source.toList
  unfold parse at h
  rw [Parser.program_ofText] at h
  unfold Parser.Takes at htakes
  cases hp : Parser.programWithin (source.toList.length + 1) ⟨0, source.toList⟩ with
  | ok forms' c =>
    rw [hp] at h htakes
    cases h
    obtain ⟨w, htext, -, hnil, hforms⟩ := htakes
    rwa [htext, hnil, List.append_nil]
  | error e c =>
    rw [hp] at h
    cases h

theorem forms_of_parse {source : String} {forms : List Expr} (h : parse source = .ok forms) :
    Forms source.toList (forms.map Expr.bare) := (formsAt_of_parse h).forms

end SmallLisp
