import SmallLisp.Proofs.GrammarCompleteness

/-! # Spans are faithful

The text at the span of an expression that is read is the text of that expression and nothing else. The span
lies within that of the expression around it, and the spans of the expressions side by side follow each other.
Read alone, the text gives the expression again, with its places counted from where it starts.
-/
namespace SmallLisp

/-! ## Trees that start elsewhere -/

def Span.shift (k : Nat) (s : Span) : Span := ⟨k + s.start, k + s.stop⟩

theorem spanAt_of_le {o : Nat} {w : List Char} (h : o + byteLength w ≤ maxOffset) :
    spanAt o w = ⟨o, o + byteLength w⟩ := Span.ofOffsets_of_le (Nat.le_add_right _ _) h

theorem shift_spanAt {k o : Nat} {w : List Char} (h : k + o + byteLength w ≤ maxOffset) :
    (spanAt o w).shift k = spanAt (k + o) w := by
  rw [spanAt_of_le h, spanAt_of_le (by omega), Span.shift, Nat.add_assoc]

/-- What a part of a text is read as where the text starts at an offset, if it is read as a given part where it
starts so many bytes further on. -/
def Part.Moved (k offset : Nat) (text next : List Char) : Part → Prop
  | .form e => ∃ e', PartAt offset text (.form e') next ∧ e'.mapSpans (·.shift k) = e
  | .items es => ∃ es', PartAt offset text (.items es') next ∧ es'.map (Expr.mapSpans (·.shift k)) = es

theorem tokenEnds_append_congr {opening : Bool} {w next next' : List Char} (h : w ≠ []) :
    TokenEnds opening (w ++ next) → TokenEnds opening (w ++ next') :=
  fun hend => (tokenEnds_append h next').mpr ((tokenEnds_append h next).mp hend)

/-- A text means the same wherever it starts, and whatever follows it where a token ends. -/
theorem PartAt.moved {o : Nat} {w next : List Char} {part : Part} (h : PartAt o w part next) :
    ∀ {k o' : Nat} {next' : List Char}, o = k + o' → o + byteLength w ≤ maxOffset →
      (TokenEnds false next → TokenEnds false next') → part.Moved k o' w next' := by
  -- over the parts of the text; the offset is an index of the induction, so `o = k + o'` is a hypothesis
  induction h with
  | int hds hend =>
    rintro k o' next' rfl hlen hnext
    refine ⟨_, .int hds (hnext hend), ?_⟩
    rw [Expr.mapSpans, shift_spanAt hlen]
  | name hx hend =>
    rintro k o' next' rfl hlen hnext
    refine ⟨_, .name hx (hnext hend), ?_⟩
    rw [Expr.mapSpans, shift_spanAt hlen]
  | @ref _ b _ _ _ hb _ ih =>
    rintro k o' next' rfl hlen hnext
    have hlen' := hlen
    simp (disch := decide) only [byteLength_append, byteLength_cons_ascii] at hlen'
    obtain ⟨e', he, rfl⟩ := @ih k (o' + 1 + byteLength b) next' (by omega) (by omega) hnext
    refine ⟨_, .ref hb he, ?_⟩
    rw [Expr.mapSpans, shift_spanAt hlen]
  | @define _ b₁ b₂ b₃ x ps w _ _ _ _ hb₁ hdef hb₂ hx hname hb₃ hps _ hne hs ih =>
    rintro k o' next' rfl hlen hnext
    have hlen' := hlen
    simp (disch := decide) only [byteLength_append, byteLength_cons_ascii] at hlen'
    obtain ⟨body', hbody, rfl⟩ := @ih k
      (o' + 1 + byteLength b₁ + 3 + byteLength b₂ + byteLength x + byteLength b₃ + 1 + byteLength ps) next'
      (by omega) (by omega) hnext
    refine ⟨_, .define hb₁ hdef hb₂ hx hname hb₃ hps hbody (by simpa using hne) rfl, ?_⟩
    rw [Expr.mapSpans, Definition.mapSpans_eq, shift_spanAt hlen, ← hs]
  | @branch _ b₁ b₂ t w _ _ _ _ _ _ hb₁ hif hb₂ _ hw hs iht ihw =>
    rintro k o' next' rfl hlen hnext
    have hlen' := hlen
    simp (disch := decide) only [byteLength_append, byteLength_cons_ascii] at hlen'
    obtain ⟨e', ht', he'⟩ := @iht k (o' + 1 + byteLength b₁ + 2 + byteLength b₂) (w ++ next')
      (by omega) (by omega) (tokenEnds_append_congr hw.ne_nil)
    obtain ⟨test', st', rfl, rfl, rfl⟩ := Expr.exists_call_of_mapSpans he'
    obtain ⟨es', hw', hes'⟩ := @ihw k (o' + 1 + byteLength b₁ + 2 + byteLength b₂ + byteLength t) next'
      (by omega) (by omega) hnext
    obtain ⟨yes', no', rfl, rfl, rfl⟩ := exists_cons_toList_of_map hes'
    refine ⟨_, .branch hb₁ hif hb₂ ht' hw' rfl, ?_⟩
    rw [Expr.mapSpans_branch, shift_spanAt hlen, ← hs]
  | @call _ b x w _ _ _ hb hx hdef hif hhead _ hs ih =>
    rintro k o' next' rfl hlen hnext
    have hlen' := hlen
    simp (disch := decide) only [byteLength_append, byteLength_cons_ascii] at hlen'
    obtain ⟨args', hargs, rfl⟩ := @ih k (o' + 1 + byteLength b + byteLength x) next' (by omega) (by omega) hnext
    refine ⟨_, .call hb hx hdef hif hhead hargs rfl, ?_⟩
    rw [Expr.mapSpans, Call.mapSpans_eq, shift_spanAt hlen, ← hs]
  | close hb => exact fun _ _ _ => ⟨[], .close hb, rfl⟩
  | @item _ b w ws _ _ _ hb _ hs ih ihs =>
    rintro k o' next' rfl hlen hnext
    simp only [byteLength_append] at hlen
    obtain ⟨e', he, rfl⟩ := @ih k (o' + byteLength b) (ws ++ next') (by omega) (by omega)
      (tokenEnds_append_congr hs.ne_nil)
    obtain ⟨es', hes, rfl⟩ := @ihs k (o' + byteLength b + byteLength w) next' (by omega) (by omega) hnext
    exact ⟨e' :: es', .item hb he hes, rfl⟩

/-! ## Expressions in an expression -/

/-- The expressions right below an expression; the test of a conditional counts as the call that it is. -/
def Expr.children : Expr → List Expr
  | .int _ _ | .name _ _ => []
  | .ref target _ => [target]
  | .call c _ => c.args
  | .define d _ => d.body
  | .branch test yes no _ => .call test test.span :: yes :: no.toList

inductive Occurs (forms : List Expr) : Expr → Prop
  | form {e : Expr} (h : e ∈ forms) : Occurs forms e
  | child {e c : Expr} (h : Occurs forms e) (hc : c ∈ e.children) : Occurs forms c

def InOrder (es : List Expr) : Prop := es.Pairwise fun a b => a.span.stop ≤ b.span.start

/-- Expressions read from a text at an offset, one after the other and with anything between them. -/
inductive Row : (offset : Nat) → (text : List Char) → List Expr → (next : List Char) → Prop
  | nil {o : Nat} {w next : List Char} : Row o w [] next
  | cons {o : Nat} {a v w next : List Char} {e : Expr} {es : List Expr}
      (h : PartAt (o + byteLength a) v (.form e) (w ++ next))
      (hs : Row (o + byteLength a + byteLength v) w es next) : Row o (a ++ (v ++ w)) (e :: es) next

theorem PartAt.span_of_le {o : Nat} {w next : List Char} {e : Expr} (h : PartAt o w (.form e) next)
    (hlen : o + byteLength w ≤ maxOffset) : e.span = ⟨o, o + byteLength w⟩ := by
  rw [h.span_eq, spanAt_of_le hlen]

theorem PartAt.call_span {o : Nat} {w next : List Char} {c : Call} {s : Span}
    (h : PartAt o w (.form (.call c s)) next) : c.span = s := by
  cases h
  rfl

namespace Row
variable {o : Nat} {w next : List Char} {es : List Expr}

theorem prepend (a : List Char) (h : Row (o + byteLength a) w es next) : Row o (a ++ w) es next := by
  cases h with
  | nil => exact .nil
  | @cons _ a' v w _ e es h hs =>
    rw [← List.append_assoc]
    rw [Nat.add_assoc o, ← byteLength_append] at h hs
    exact .cons h hs

theorem single {e : Expr} (h : PartAt o w (.form e) next) : Row o w [e] next := by
  rw [← List.append_nil w]
  exact .cons (a := []) h .nil

theorem exists_partAt (h : Row o w es next) :
    ∀ e ∈ es, ∃ a v z, w = a ++ (v ++ z) ∧ PartAt (o + byteLength a) v (.form e) (z ++ next) := by
  induction h with
  | nil => exact nofun
  | @cons o a v w next e es h hs ih =>
    refine List.forall_mem_cons.mpr ⟨⟨a, v, w, rfl, h⟩, fun e' he' => ?_⟩
    obtain ⟨a', v', z, rfl, h'⟩ := ih e' he'
    refine ⟨a ++ (v ++ a'), v', z, by simp only [List.append_assoc], ?_⟩
    simpa only [byteLength_append, Nat.add_assoc] using h'

theorem span_within (h : Row o w es next) (hlen : o + byteLength w ≤ maxOffset) :
    ∀ e ∈ es, o ≤ e.span.start ∧ e.span.stop ≤ o + byteLength w := by
  intro e he
  obtain ⟨a, v, z, rfl, hpart⟩ := h.exists_partAt e he
  simp only [byteLength_append] at hlen ⊢
  rw [hpart.span_of_le (by omega)]
  dsimp only
  omega

theorem inOrder (h : Row o w es next) (hlen : o + byteLength w ≤ maxOffset) : InOrder es := by
  induction h with
  | nil => exact .nil
  | @cons o a v w next e es h hs ih =>
    simp only [byteLength_append] at hlen
    refine List.pairwise_cons.mpr ⟨fun e' he' => ?_, ih (by omega)⟩
    rw [h.span_of_le (by omega)]
    exact (hs.span_within (by omega) e' he').1

end Row

def Part.InRow (offset : Nat) (text next : List Char) : Part → Prop
  | .form e => Row offset text e.children next
  | .items es => Row offset text es next

theorem PartAt.inRow {o : Nat} {w next : List Char} {part : Part} (h : PartAt o w part next) :
    part.InRow o w next := by
  induction h with
  | int _ _ | name _ _ => exact .nil
  | @ref _ b _ _ _ _ h _ => exact .prepend ['&'] (.prepend b (.single h))
  | @define _ b₁ b₂ b₃ x ps _ _ _ _ _ _ _ _ _ _ _ _ _ _ _ ih =>
    exact .prepend ['('] (.prepend b₁ (.prepend ['d', 'e', 'f'] (.prepend b₂ (.prepend x (.prepend b₃
      (.prepend ['('] (.prepend ps ih)))))))
  | @branch _ b₁ b₂ _ _ _ _ _ _ _ _ _ _ _ ht _ _ _ ihw =>
    refine .prepend ['('] (.prepend b₁ (.prepend ['i', 'f'] (.prepend b₂ (.cons (a := []) ?_ ihw))))
    rwa [ht.call_span]
  | @call _ b x _ _ _ _ _ _ _ _ _ _ _ ih => exact .prepend ['('] (.prepend b (.prepend x ih))
  | close hb => exact .nil
  | item hb h _ _ ihs => exact .cons h ihs

theorem FormsAt.row {o : Nat} {w : List Char} {es : List Expr} (h : FormsAt o w es) : Row o w es [] := by
  induction h with
  | nil hb => exact .nil
  | cons hb h _ ih => exact .cons (by rwa [List.append_nil]) ih

theorem Occurs.exists_partAt {source : List Char} {forms : List Expr} {e : Expr} (hforms : FormsAt 0 source forms)
    (h : Occurs forms e) :
    ∃ a v z, source = a ++ (v ++ z) ∧ PartAt (byteLength a) v (.form e) z := by
  induction h with
  | form h =>
    obtain ⟨a, v, z, htext, h⟩ := hforms.row.exists_partAt _ h
    rw [Nat.zero_add, List.append_nil] at h
    exact ⟨a, v, z, htext, h⟩
  | child _ hc ih =>
    obtain ⟨a, v, z, rfl, h⟩ := ih
    obtain ⟨a', v', z', rfl, h'⟩ := Row.exists_partAt h.inRow _ hc
    refine ⟨a ++ a', v', z' ++ z, by simp only [List.append_assoc], ?_⟩
    rwa [byteLength_append]

/-! ## Faithful spans -/

/-- The span of an expression is where the expression stands in a source text. -/
structure Expr.Faithful (source : String) (e : Expr) : Prop where
  nonempty : e.span.start < e.span.stop
  stop_le : e.span.stop ≤ byteLength source.toList
  children_within : ∀ c ∈ e.children, e.span.start ≤ c.span.start ∧ c.span.stop ≤ e.span.stop
  children_inOrder : InOrder e.children
  /-- The span starts and ends between two characters, and the text in it is read as one form, whose spans are
  those of the expression, counted from where it starts. -/
  exists_slice : ∃ text e', slice? e.span.start e.span.stop source.toList = some text ∧
    parse (String.ofList text) = .ok [e'] ∧ e'.mapSpans (·.shift e.span.start) = e

/-- In a text that spans can hold the places of, every expression that is read has a faithful span, and the forms
follow each other. -/
theorem parse_spans_faithful {source : String} {forms : List Expr} (hlen : byteLength source.toList < 4294967296)
    (h : parse source = .ok forms) : InOrder forms ∧ ∀ e, Occurs forms e → e.Faithful source := by
  have hforms := formsAt_of_parse h
  have hmax : byteLength source.toList ≤ maxOffset := Nat.le_of_lt_succ hlen
  refine ⟨hforms.row.inOrder (by rwa [Nat.zero_add]), fun e he => ?_⟩
  obtain ⟨a, v, z, htext, hpart⟩ := he.exists_partAt hforms
  have hend : byteLength a + byteLength v ≤ byteLength source.toList := by
    rw [htext, byteLength_append, byteLength_append]
    omega
  have hstop := Nat.le_trans hend hmax
  have hrow : Row (byteLength a) v e.children z := hpart.inRow
  have hspan := hpart.span_of_le hstop
  have hmoved : (Part.form e).Moved (byteLength a) 0 v [] := hpart.moved rfl hstop fun _ => trivial
  obtain ⟨e', he', hshift⟩ := hmoved
  have hread : FormsAt 0 (String.ofList v).toList [e'] := by
    rw [String.toList_ofList, ← List.append_nil v]
    exact .cons .nil he' (.nil .nil)
  constructor
  case nonempty =>
    rw [hspan]
    exact Nat.lt_add_of_pos_right (byteLength_pos hpart.ne_nil)
  case stop_le => rwa [hspan]
  case children_within =>
    rw [hspan]
    exact hrow.span_within hstop
  case children_inOrder => exact hrow.inOrder hstop
  case exists_slice =>
    refine ⟨v, e', ?_, parse_of_formsAt hread, ?_⟩
    · rw [hspan, htext]
      exact slice?_append a v z
    · rwa [hspan]

/-- The test of `(if (< &1 & 2) 3)`, two references to integers. -/
def referencesTest : Call :=
  ⟨"<", [.ref (.int 1 ⟨8, 9⟩) ⟨7, 9⟩, .ref (.int 2 ⟨12, 13⟩) ⟨10, 13⟩], ⟨4, 14⟩⟩

theorem parse_spans_faithful_branch :
    parse "(if (< &1 & 2) 3) 4" = .ok [.branch referencesTest (.int 3 ⟨15, 16⟩) none ⟨0, 17⟩,
      .int 4 ⟨18, 19⟩] ∧
    (Expr.call referencesTest ⟨4, 14⟩).Faithful "(if (< &1 & 2) 3) 4" ∧
    (Expr.ref (.int 2 ⟨12, 13⟩) ⟨10, 13⟩).Faithful "(if (< &1 & 2) 3) 4" := by
  have hread : parse "(if (< &1 & 2) 3) 4" =
      .ok [.branch referencesTest (.int 3 ⟨15, 16⟩) none ⟨0, 17⟩, .int 4 ⟨18, 19⟩] := by rfl
  have hfaithful := (parse_spans_faithful (by decide) hread).2
  have hbranch := Occurs.form (List.mem_cons_self (a := .branch referencesTest (.int 3 ⟨15, 16⟩) none ⟨0, 17⟩)
    (l := [.int 4 ⟨18, 19⟩]))
  have htest : Occurs _ (.call referencesTest ⟨4, 14⟩) := hbranch.child List.mem_cons_self
  have href : Occurs _ (.ref (.int 2 ⟨12, 13⟩) ⟨10, 13⟩) :=
    htest.child (List.mem_cons_of_mem _ List.mem_cons_self)
  exact ⟨hread, hfaithful _ htest, hfaithful _ href⟩

end SmallLisp
