import SmallLisp.Proofs.GrammarSoundness
import SmallLisp.Text.Pieces

/-! # The grammar is read

A step of reading succeeds on a text of the grammar whatever offset the text starts at, and leaves what
follows the text. Blanks are read up to the first other character and names up to the end of their token, so
the tree that is read is the one that the text has in the grammar at that offset, and a text has only one.
-/
namespace SmallLisp

theorem isBlank_iff {c : Char} : isBlank c = true ↔ c ∈ [' ', '\t', '\r', '\n'] := by
  simp [isBlank, or_assoc]

/-- A class without the characters that end a token stops where a token ends. -/
theorem TokenEnds.stops {opening : Bool} {text : List Char} {p : Char → Bool} (h : TokenEnds opening text)
    (hp : [' ', '\t', '\r', '\n', ')', '('].any p = false) : Stops p text := by
  cases text with
  | nil => exact nofun
  | cons c cs =>
    refine stops_cons (Bool.eq_false_iff.mpr (List.any_eq_false.mp hp c ?_)) cs
    rcases h with hc | rfl | ⟨-, rfl⟩
    · exact List.mem_append_left [')', '('] (isBlank_iff.mp hc)
    · simp
    · simp

theorem ne_of_class {p : Char → Bool} {c d : Char} (hc : p c = true) (hd : p d = false) : c ≠ d := by
  refine ne_of_apply_ne p ?_
  rw [hc, hd]
  decide

theorem isBlank_of_class {p : Char → Bool} {c : Char} (hc : p c = true)
    (hp : [' ', '\t', '\r', '\n'].any p = false) : isBlank c = false :=
  Bool.eq_false_iff.mpr fun hb => List.any_eq_false.mp hp c (isBlank_iff.mp hb) hc

theorem isBlank_of_isNameChar {c : Char} (h : isNameChar c = true) : isBlank c = false :=
  isBlank_of_class h (by decide)

theorem isBlank_of_isDigit {c : Char} (h : c.isDigit = true) : isBlank c = false := isBlank_of_class h (by decide)

theorem isDigit_of_isLower {c : Char} (h : c.isLower = true) : c.isDigit = false := by
  have hlower : 'a'.val ≤ c.val := of_decide_eq_true (Bool.and_eq_true_iff.mp h).1
  refine Bool.eq_false_iff.mpr fun hd => ?_
  have hdigit : c.val ≤ '9'.val := of_decide_eq_true (Bool.and_eq_true_iff.mp hd).2
  exact absurd (UInt32.le_trans hlower hdigit) (by decide)

theorem IsIdentifier.exists_cons {x : List Char} (h : IsIdentifier x) : ∃ c cs, x = c :: cs ∧ c.isLower = true := by
  cases x with
  | nil => exact absurd rfl h.ne_nil
  | cons c cs => exact ⟨c, cs, rfl, h.1⟩

theorem IsOperand.exists_cons {x : List Char} (h : IsOperand x) :
    ∃ c cs, x = c :: cs ∧ (c.isLower || isOperatorChar c) = true := by
  cases x with
  | nil => exact absurd rfl h.ne_nil
  | cons c cs => exact ⟨c, cs, rfl, by simpa using h.1⟩

theorem IsOperand.nameChars {x : List Char} (h : IsOperand x) : ∀ c ∈ x, isNameChar c = true := by
  cases x with
  | nil => exact nofun
  | cons c cs =>
    refine List.forall_mem_cons.mpr ⟨?_, h.2⟩
    rcases h.1 with hc | hc
    · exact isNameChar_of_isLower hc
    · exact isNameChar_of_isOperatorChar hc

theorem IsIdentifier.isOperand {x : List Char} (h : IsIdentifier x) : IsOperand x := by
  cases x with
  | nil => exact h
  | cons c cs => exact ⟨.inl h.1, h.2⟩

/-- No blanks are skipped in front of a name. -/
theorem IsIdentifier.stops {x : List Char} (h : IsIdentifier x) (text : List Char) : Stops isBlank (x ++ text) := by
  obtain ⟨c, cs, rfl, hc⟩ := h.exists_cons
  exact stops_cons (isBlank_of_isNameChar (isNameChar_of_isLower hc)) _

/-- A form starts with a character that is neither a blank nor a closing parenthesis. -/
theorem PartAt.start {o : Nat} {w next : List Char} {e : Expr} (h : PartAt o w (.form e) next) :
    ∃ c v, w = c :: v ∧ isBlank c = false ∧ c ≠ ')' := by
  cases h with
  | int hds _ =>
    obtain ⟨d, ds, rfl⟩ := List.exists_cons_of_ne_nil hds.ne_nil
    have hd := hds.digits d List.mem_cons_self
    exact ⟨d, ds, rfl, isBlank_of_isDigit hd, ne_of_class hd (by decide)⟩
  | name hx _ =>
    obtain ⟨c, cs, rfl, hc⟩ := hx.exists_cons
    have hc := isNameChar_of_isLower hc
    exact ⟨c, cs, rfl, isBlank_of_isNameChar hc, ne_of_class hc (by decide)⟩
  | ref _ _ => exact ⟨'&', _, rfl, rfl, by decide⟩
  | define _ _ _ _ _ _ _ _ _ _ | branch _ _ _ _ _ _ | call _ _ _ _ _ _ _ => exact ⟨'(', _, rfl, rfl, by decide⟩

namespace Parser
variable {α β : Type} {o : Nat} {w v next : List Char}

/-! ## Steps -/

/-- A step succeeds on a text at an offset where `next` follows it, makes something of the text and goes past it. -/
def Reads (step : Parser α) (o : Nat) (text : List Char) (a : α) (next : List Char) : Prop :=
  step ⟨o, text ++ next⟩ = .ok a ⟨o + byteLength text, next⟩

namespace Reads
variable {a : α}

theorem bind {step : Parser α} {f : α → Parser β} {b : β} (h : Reads step o w a (v ++ next))
    (hf : Reads (f a) (o + byteLength w) v b next) : Reads (step >>= f) o (w ++ v) b next := by
  change EStateM.bind step f ⟨o, (w ++ v) ++ next⟩ = _
  rw [EStateM.bind, List.append_assoc, h]
  change f a ⟨o + byteLength w, v ++ next⟩ = _
  rw [hf, byteLength_append, Nat.add_assoc]

/-- A step after which nothing more is taken. -/
theorem bind_nil {step : Parser α} {f : α → Parser β} {b : β} (h : Reads step o w a next)
    (hf : Reads (f a) (o + byteLength w) [] b next) : Reads (step >>= f) o w b next := by
  rw [← List.append_nil w]
  exact bind h hf

theorem pure (a : α) : Reads (Pure.pure a) o [] a next := rfl

theorem get_bind {f : Cursor → Parser α} (h : Reads (f ⟨o, w ++ next⟩) o w a next) :
    Reads (get >>= f) o w a next := h

theorem peek_bind {f : Option Char → Parser α} (h : Reads (f (w ++ next).head?) o w a next) :
    Reads (peek? >>= f) o w a next := h

/-- A step that looks at the first character of what it takes. -/
theorem peek_some_bind {c : Char} {f : Option Char → Parser α} (hc : (w ++ next).head? = some c)
    (h : Reads (f (some c)) o w a next) : Reads (peek? >>= f) o w a next := by
  refine peek_bind ?_
  rwa [hc]

theorem offset_bind {f : Nat → Parser α} (h : Reads (f o) o w a next) : Reads (offset >>= f) o w a next := h

theorem spanFrom_bind {start : Nat} {f : Span → Parser α} (h : Reads (f (.ofOffsets start o)) o w a next) :
    Reads (spanFrom start >>= f) o w a next := h

theorem advance_bind {c : Char} {f : Unit → Parser α} (hc : c.utf8Size = 1) (h : Reads (f ()) (o + 1) w a next) :
    Reads (advance >>= f) o (c :: w) a next := by
  have hread : Reads advance o [c] () (w ++ next) := rfl
  refine bind hread ?_
  rwa [byteLength_cons, hc]

theorem run_bind {p : Char → Bool} {f : List Char → Parser α} (hw : ∀ c ∈ w, p c = true)
    (hstop : Stops p (v ++ next))
    (h : Reads (f w) (o + byteLength w) v a next) : Reads (run p >>= f) o (w ++ v) a next := by
  have hread : Reads (run p) o w w (v ++ next) := by
    change EStateM.Result.ok ((w ++ (v ++ next)).takeWhile p)
      (Cursor.mk (o + byteLength ((w ++ (v ++ next)).takeWhile p)) ((w ++ (v ++ next)).dropWhile p)) = _
    rw [takeWhile_run hw hstop, dropWhile_run hw hstop]
  exact bind hread h

theorem skipBlanks_bind {b : List Char} {f : Unit → Parser α} (hb : Blanks b) (hstop : Stops isBlank (v ++ next))
    (h : Reads (f ()) (o + byteLength b) v a next) : Reads (skipBlanks >>= f) o (b ++ v) a next :=
  run_bind (f := fun _ => f ()) hb hstop h

theorem tokenEnd_bind {opening : Bool} {f : Unit → Parser α} (hend : TokenEnds opening (w ++ next))
    (h : Reads (f ()) o w a next) : Reads (tokenEnd opening >>= f) o w a next := by
  have hcheck : Reads (tokenEnd opening) o [] () (w ++ next) := by
    refine peek_bind ?_
    cases hw : w ++ next with
    | nil => exact pure ()
    | cons c cs =>
      rw [hw] at hend
      dsimp only [List.nil_append, List.head?_cons]
      rw [if_pos]
      · exact pure ()
      · simpa only [TokenEnds, Bool.or_eq_true, Bool.and_eq_true, beq_iff_eq, or_assoc] using hend
  exact bind hcheck h

theorem char_bind {c : Char} {expected : Expectation} {f : Unit → Parser α} (hc : c.utf8Size = 1)
    (h : Reads (f ()) (o + 1) w a next) : Reads (char c expected >>= f) o (c :: w) a next := by
  have hread : Reads (char c expected) o [c] () (w ++ next) := by
    refine peek_bind ?_
    rw [if_pos (by simp)]
    rfl
  refine bind hread ?_
  rwa [byteLength_cons, hc]

end Reads

/-! ## Tokens -/

theorem identifier_reads {expected : Expectation} {opening : Bool} {x : List Char} (hx : IsIdentifier x)
    (hend : TokenEnds opening next) : Reads (identifier expected opening) o x (String.ofList x) next := by
  have hread : Reads (do
      let name ← run isNameChar
      tokenEnd opening
      return String.ofList name) o (x ++ []) (String.ofList x) next :=
    .run_bind hx.isOperand.nameChars (hend.stops (by decide)) (.tokenEnd_bind hend (.pure _))
  rw [List.append_nil] at hread
  obtain ⟨c, cs, rfl, hc⟩ := hx.exists_cons
  refine .get_bind ?_
  dsimp only [List.cons_append]
  rwa [if_pos hc]

theorem integer_reads {ds : List Char} (hds : IsInteger ds) (hend : TokenEnds false next) :
    Reads integer o ds (.int (Int64.ofNat (Nat.ofDigitChars 10 ds 0)) (spanAt o ds)) next := by
  rw [← List.append_nil ds]
  refine .offset_bind (.run_bind hds.digits (hend.stops (by decide)) (.spanFrom_bind ?_))
  rw [if_pos (Nat.lt_of_le_pred (by decide) hds.bound), List.append_nil]
  exact .tokenEnd_bind hend (.pure _)

theorem variableName_reads {x : List Char} (hx : IsIdentifier x) (hend : TokenEnds false next) :
    Reads variableName o x (.name (String.ofList x) (spanAt o x)) next := by
  rw [← List.append_nil x]
  refine .offset_bind (.run_bind hx.isOperand.nameChars (hend.stops (by decide)) (.tokenEnd_bind hend ?_))
  rw [List.append_nil]
  exact .spanFrom_bind (.pure _)

theorem params_reads (n : Nat) : ∀ {o : Nat} {w : List Char} {xs : List String}, w.length ≤ n → Params w xs →
    Reads (params n) o w xs next := by
  induction n with
  | zero =>
    intro o w xs hlen hw
    exact absurd (List.eq_nil_of_length_eq_zero (Nat.le_zero.mp hlen)) hw.ne_nil
  | succ n ih =>
    intro o w xs hlen hw
    cases hw with
    | close hb =>
      refine .skipBlanks_bind hb (stops_cons (by decide) _) (.peek_bind ?_)
      rw [if_pos (by simp)]
      exact .advance_bind rfl (.pure _)
    | @cons b x w xs hb hx hend hw =>
      have hlen' : w.length ≤ n := by
        have hpos := List.length_pos_iff.mpr hx.ne_nil
        simp only [List.length_append] at hlen
        omega
      have hclose : ¬ ((x ++ w) ++ next).head? == some ')' := by
        obtain ⟨c, cs, rfl, hc⟩ := hx.exists_cons
        simpa using ne_of_class hc (by decide)
      rw [List.append_assoc]
      refine .skipBlanks_bind hb ?_ (.peek_bind ?_)
      · rw [List.append_assoc]
        exact hx.stops _
      · rw [if_neg hclose]
        have hname := (tokenEnds_append hw.ne_nil next).mpr hend
        exact .bind (identifier_reads hx hname) (.bind_nil (ih hlen' hw) (.pure _))

/-! ## Forms -/

def ReadsForms (expr : Parser Expr) (n : Nat) : Prop :=
  ∀ ⦃o w e next⦄, w.length ≤ n → SpacedAt o w e next → Reads expr o w e next

section
variable {expr : Parser Expr} {n : Nat}

theorem untilClose_reads (h : ReadsForms expr n) (k : Nat) : ∀ {o : Nat} {w : List Char} {es : List Expr},
    w.length ≤ k → w.length ≤ n → PartAt o w (.items es) next → Reads (untilClose expr k) o w es next := by
  induction k with
  | zero =>
    intro o w es hk _ hw
    exact absurd (List.eq_nil_of_length_eq_zero (Nat.le_zero.mp hk)) hw.ne_nil
  | succ k ih =>
    intro o w es hk hn hw
    cases hw with
    | close hb =>
      refine .skipBlanks_bind hb (stops_cons (by decide) _) (.peek_some_bind rfl ?_)
      exact .advance_bind rfl (.pure _)
    | item hb he hes =>
      have hpos := List.length_pos_iff.mpr he.ne_nil
      obtain ⟨c, v, rfl, hblank, hc⟩ := he.start
      simp only [List.length_append] at hk hn
      refine .skipBlanks_bind hb (stops_cons hblank _) (.peek_some_bind rfl ?_)
      dsimp only
      rw [if_neg (by simpa using hc)]
      exact .bind (h (by omega) he.spacedAt) (.bind_nil (ih (by omega) (by omega) hes) (.pure _))

theorem definition_reads (h : ReadsForms expr n) {start : Nat} {b₂ b₃ x ps : List Char} {params : List String}
    {body : List Expr} {s : Span} (hb₂ : Blanks b₂) (hx : IsIdentifier x) (hname : TokenEnds true (b₃ ++ ['(']))
    (hb₃ : Blanks b₃) (hps : Params ps params)
    (hbody : PartAt (o + byteLength b₂ + byteLength x + byteLength b₃ + 1 + byteLength ps) w (.items body) next)
    (hne : body ≠ []) (hn : ps.length ≤ n ∧ w.length ≤ n)
    (hs : s = .ofOffsets start
      (o + byteLength b₂ + byteLength x + byteLength b₃ + 1 + byteLength ps + byteLength w)) :
    Reads (definition expr n start) o (b₂ ++ (x ++ (b₃ ++ '(' :: (ps ++ w))))
      (.define ⟨String.ofList x, params, body, s⟩ s) next := by
  have hend : TokenEnds true ((b₃ ++ '(' :: (ps ++ w)) ++ next) := by
    rw [List.append_cons, List.append_assoc, tokenEnds_append (by simp)]
    exact hname
  refine .skipBlanks_bind hb₂ ?_ (.bind (identifier_reads hx hend) ?_)
  · rw [List.append_assoc]
    exact hx.stops _
  refine .skipBlanks_bind hb₃ (stops_cons (by decide) _) (.char_bind rfl ?_)
  refine .bind (params_reads n hn.1 hps) (.bind_nil (untilClose_reads h n hn.2 hn.2 hbody) (.spanFrom_bind ?_))
  rw [if_neg (by simpa using hne), ← hs]
  exact .pure _

theorem conditional_reads (h : ReadsForms expr n) {start : Nat} {t : List Char} {test : Call} {st s : Span}
    {yes : Expr} {no : Option Expr} (ht : SpacedAt o t (.call test st) (w ++ next))
    (hw : PartAt (o + byteLength t) w (.items (yes :: no.toList)) next) (hn : t.length + w.length ≤ n)
    (hs : s = .ofOffsets start (o + byteLength t + byteLength w)) :
    Reads (conditional expr start) o (t ++ w) (.branch test yes no s) next := by
  -- what follows the test decides how many branches there are, and the parenthesis comes after them
  have close {p : Nat} (hp : p + 1 = o + byteLength t + byteLength w) :
      Reads (do
        char ')' .closeConditional
        return Expr.branch test yes no (← spanFrom start)) p [')'] (.branch test yes no s) next := by
    refine .char_bind rfl (.spanFrom_bind ?_)
    rw [hp, ← hs]
    exact .pure _
  refine .bind (h (by omega) ht) ?_
  cases hw with
  | @item _ b w ws _ _ _ hb hyes hrest =>
    simp only [List.length_append] at hn
    rw [← List.append_assoc]
    rw [Nat.add_assoc (o + byteLength t), ← byteLength_append] at hrest
    refine .bind (h (by simp; omega) ⟨b, w, rfl, hb, hyes⟩) ?_
    cases no with
    | none =>
      cases hrest with
      | close hb =>
        refine .skipBlanks_bind hb (stops_cons (by decide) _) (.peek_some_bind rfl ?_)
        refine close ?_
        simp (disch := decide) only [byteLength_append, byteLength_cons_ascii, byteLength_nil]
        omega
    | some e =>
      cases hrest with
      | @item _ b₁ v _ _ _ _ hb₁ hno hclose =>
        cases hclose with
        | @close _ b₂ _ hb₂ =>
          obtain ⟨c, v, rfl, hblank, hc⟩ := hno.start
          simp only [List.length_append, List.length_cons] at hn
          refine .skipBlanks_bind hb₁ (stops_cons hblank _) (.peek_some_bind rfl ?_)
          rw [if_neg (by simpa using hc)]
          refine .bind (h (by simp; omega) hno.spacedAt) (.skipBlanks_bind hb₂ (stops_cons (by decide) _) ?_)
          refine close ?_
          simp (disch := decide) only [byteLength_append, byteLength_cons_ascii, byteLength_nil]
          omega

def afterHead (expr : Parser Expr) (n start : Nat) (head : String) : Parser Expr :=
  if head == "def" then definition expr n start
  else if head == "if" then conditional expr start
  else do
    let args ← untilClose expr n
    let span ← spanFrom start
    return .call ⟨head, args, span⟩ span

theorem form_reads {b x : List Char} {e : Expr} (hb : Blanks b) (hx : IsOperand x) (hend : TokenEnds true (w ++ next))
    (h : Reads (afterHead expr n o (String.ofList x)) (o + 1 + byteLength b + byteLength x) w e next) :
    Reads (form expr n) o ('(' :: (b ++ (x ++ w))) e next := by
  have hread : Reads (do
      let head := String.ofList (← run isNameChar)
      tokenEnd true
      afterHead expr n o head) (o + 1 + byteLength b) (x ++ w) e next :=
    .run_bind hx.nameChars (hend.stops (by decide)) (.tokenEnd_bind hend h)
  obtain ⟨c, cs, rfl, hc⟩ := hx.exists_cons
  have hblank : isBlank c = false := isBlank_of_isNameChar (hx.nameChars c List.mem_cons_self)
  refine .offset_bind (.advance_bind rfl (.skipBlanks_bind hb (stops_cons hblank _) (.peek_some_bind rfl ?_)))
  dsimp only
  rwa [if_pos hc]

end

theorem exprWithin_reads (n : Nat) : ReadsForms (exprWithin n) n := by
  induction n with
  | zero =>
    rintro o w e next hlen ⟨b, w, rfl, -, h⟩
    have hpos := List.length_pos_iff.mpr h.ne_nil
    simp only [List.length_append] at hlen
    omega
  | succ n ih =>
    rintro o w e next hlen ⟨b, w, rfl, hb, h⟩
    rw [List.length_append] at hlen
    have hstop : Stops isBlank (w ++ next) := by
      obtain ⟨c, v, rfl, hblank, -⟩ := h.start
      exact stops_cons hblank _
    refine .skipBlanks_bind hb hstop (.offset_bind ?_)
    cases h with
    | int hds hend =>
      have hread := integer_reads (o := o + byteLength b) hds hend
      obtain ⟨d, ds, rfl⟩ := List.exists_cons_of_ne_nil hds.ne_nil
      have hd := hds.digits d List.mem_cons_self
      have hparen : d ≠ '(' := ne_of_class hd (by decide)
      have hamp : d ≠ '&' := ne_of_class hd (by decide)
      refine .peek_some_bind rfl ?_
      dsimp only
      rwa [if_neg (by simpa using hparen), if_neg (by simpa using hamp), if_pos hd]
    | name hx hend =>
      have hread := variableName_reads (o := o + byteLength b) hx hend
      obtain ⟨c, cs, rfl, hc⟩ := hx.exists_cons
      have hparen : c ≠ '(' := ne_of_class hc (by decide)
      have hamp : c ≠ '&' := ne_of_class hc (by decide)
      have hdigit : ¬ c.isDigit = true := by simp [isDigit_of_isLower hc]
      refine .peek_some_bind rfl ?_
      dsimp only
      rwa [if_neg (by simpa using hparen), if_neg (by simpa using hamp), if_neg hdigit, if_pos hc]
    | @ref _ b' w _ e hb' h =>
      refine .peek_some_bind rfl ?_
      dsimp only
      rw [if_neg (by decide), if_pos (by decide)]
      simp only [List.length_cons, List.length_append] at hlen
      refine .advance_bind rfl (.bind_nil (ih (by simp; omega) ⟨b', w, rfl, hb', h⟩) ?_)
      rw [h.span_eq, cover_spanAt '&' rfl]
      exact .pure _
    | @define _ b₁ b₂ b₃ x ps w _ _ _ _ hb₁ hdef hb₂ hx hname hb₃ hps hbody hne hs =>
      have hend : TokenEnds true ((b₂ ++ (x ++ (b₃ ++ '(' :: (ps ++ w)))) ++ next) := by
        rw [← List.append_assoc b₂, List.append_assoc]
        exact (tokenEnds_append (by simp [hx.ne_nil]) _).mpr hdef
      have hhead : IsOperand ['d', 'e', 'f'] := ⟨by decide, List.all_eq_true.mp rfl⟩
      simp only [List.length_append, List.length_cons] at hlen
      refine .peek_some_bind rfl ?_
      dsimp only
      rw [if_pos (by decide)]
      refine form_reads (x := ['d', 'e', 'f']) hb₁ hhead hend ?_
      refine definition_reads ih hb₂ hx hname hb₃ hps hbody hne (by omega) (hs.trans (ofOffsets_eq_spanAt ?_).symm)
      simp (disch := decide) only [byteLength_append, byteLength_cons_ascii, byteLength_nil]
      omega
    | @branch _ b₁ b₂ t w _ _ _ _ _ _ hb₁ hif hb₂ ht hw hs =>
      have hend : TokenEnds true (((b₂ ++ t) ++ w) ++ next) := by
        rw [List.append_assoc]
        exact (tokenEnds_append (by simp [ht.ne_nil]) _).mpr hif
      have hhead : IsOperand ['i', 'f'] := ⟨by decide, List.all_eq_true.mp rfl⟩
      simp only [List.length_append, List.length_cons] at hlen
      rw [Nat.add_assoc _ (byteLength b₂), ← byteLength_append] at hw
      rw [← List.append_assoc b₂] at hs ⊢
      refine .peek_some_bind rfl ?_
      dsimp only
      rw [if_pos (by decide)]
      refine form_reads (x := ['i', 'f']) hb₁ hhead hend ?_
      refine conditional_reads ih ⟨b₂, t, rfl, hb₂, ht⟩ hw (by simp; omega)
        (hs.trans (ofOffsets_eq_spanAt ?_).symm)
      simp (disch := decide) only [byteLength_append, byteLength_cons_ascii, byteLength_nil]
      omega
    | @call _ b x w _ args _ hb hx hdef hif hhead hargs hs =>
      simp only [List.length_append, List.length_cons] at hlen
      refine .peek_some_bind rfl ?_
      dsimp only
      rw [if_pos (by decide)]
      refine form_reads hb hx ((tokenEnds_append hargs.ne_nil next).mpr hhead) ?_
      have hne (s : String) (h : x ≠ s.toList) : ¬ (String.ofList x == s) = true := by
        rwa [beq_iff_eq, ← String.toList_inj, String.toList_ofList]
      rw [afterHead, if_neg (hne "def" hdef), if_neg (hne "if" hif)]
      refine .bind_nil (untilClose_reads ih n (by omega) (by omega) hargs) (.spanFrom_bind ?_)
      rw [ofOffsets_eq_spanAt, ← hs]
      · exact .pure _
      · simp (disch := decide) only [byteLength_append, byteLength_cons_ascii]
        omega

theorem programWithin_reads {w : List Char} {es : List Expr} (h : FormsAt o w es) :
    ∀ n, w.length < n → Reads (programWithin n) o w es [] := by
  induction h with
  | @nil o b hb =>
    rintro (_ | n) hlen
    · omega
    · rw [← List.append_nil b]
      exact .skipBlanks_bind hb nofun (.peek_bind (.pure _))
  | @cons o b w ws e es hb h hs ih =>
    rintro (_ | n) hlen
    · omega
    · obtain ⟨c, v, rfl, hblank, -⟩ := h.start
      simp only [List.length_append, List.length_cons] at hlen
      refine .skipBlanks_bind hb (stops_cons hblank _) (.peek_some_bind rfl ?_)
      have hread : Reads expr (o + byteLength b) (c :: v) e (ws ++ []) := by
        rw [List.append_nil]
        exact .get_bind (exprWithin_reads _ (by simp; omega) h.spacedAt)
      exact .bind hread (.bind_nil (ih n (by omega)) (.pure _))

end Parser

/-- A text made up of forms is read, as their trees. -/
theorem parse_of_formsAt {source : String} {forms : List Expr} (h : FormsAt 0 source.toList forms) :
    parse source = .ok forms := by
  have hread := Parser.programWithin_reads h _ (Nat.lt_succ_self _)
  rw [Parser.Reads, List.append_nil] at hread
  rw [parse, Parser.program_ofText, hread]

/-- A sequence of forms of the grammar is read, as their trees. -/
theorem exists_parse_of_forms {source : String} {trees : List Expr} (h : Forms source.toList trees) :
    ∃ forms, parse source = .ok forms ∧ forms.map Expr.bare = trees := by
  obtain ⟨forms, hforms, htrees⟩ := h.exists_formsAt 0
  exact ⟨forms, parse_of_formsAt hforms, htrees⟩

/-- The reader accepts exactly the texts of the grammar, each with the one tree it has there, and every other
text is an error. -/
theorem parse_ok_iff_forms (source : String) :
    (∀ trees, (∃ forms, parse source = .ok forms ∧ forms.map Expr.bare = trees) ↔ Forms source.toList trees) ∧
    (∀ trees trees', Forms source.toList trees → Forms source.toList trees' → trees = trees') ∧
    ((∀ trees, ¬ Forms source.toList trees) ↔ ∃ e, parse source = .error e) := by
  refine ⟨fun trees => ⟨?_, exists_parse_of_forms⟩, fun trees trees' h h' => ?_, ?_, ?_⟩
  · rintro ⟨forms, hparse, rfl⟩
    exact forms_of_parse hparse
  · obtain ⟨forms, hparse, rfl⟩ := exists_parse_of_forms h
    obtain ⟨forms', hparse', rfl⟩ := exists_parse_of_forms h'
    rw [hparse] at hparse'
    cases hparse'
    rfl
  · intro hnone
    cases hparse : parse source with
    | ok forms => exact absurd (forms_of_parse hparse) (hnone _)
    | error e => exact ⟨e, rfl⟩
  · rintro ⟨e, hparse⟩ trees htrees
    obtain ⟨forms, hok, -⟩ := exists_parse_of_forms htrees
    rw [hparse] at hok
    cases hok

end SmallLisp
