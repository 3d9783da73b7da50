import SmallLisp.Proofs.Grammar

/-! # The grammar with places

The grammar once more, for trees with spans: a form is a part of a text that starts at an offset, without
blanks in front of it, and the span of its tree is that part. Without their spans the trees are those of the
grammar, and a text of the grammar has a tree with spans wherever it starts.
-/
namespace SmallLisp

def spanAt (offset : Nat) (text : List Char) : Span := .ofOffsets offset (offset + byteLength text)

/-- The characters that forms are put together with have one byte each. -/
theorem byteLength_cons_ascii {c : Char} (hc : c.val ≤ 127) (text : List Char) :
    byteLength (c :: text) = byteLength text + 1 := by
  rw [byteLength_cons, Char.utf8Size_eq_one_iff.mpr hc, Nat.add_comm]

/-- A span that ends where a text at an offset does. -/
theorem ofOffsets_eq_spanAt {start stop : Nat} {text : List Char} (h : stop = start + byteLength text) :
    Span.ofOffsets start stop = spanAt start text := by
  rw [h, spanAt]

/-- The span from a character of one byte up to the end of a text after it. -/
theorem cover_spanAt {o : Nat} (c : Char) (hc : c.utf8Size = 1) (b w : List Char) :
    (Span.point o).cover (spanAt (o + 1 + byteLength b) w) = spanAt o (c :: (b ++ w)) := by
  simp only [Span.point, Span.cover, spanAt, Span.ofOffsets, byteLength_cons, byteLength_append, hc, Span.mk.injEq]
  omega

inductive Part where
  | form (e : Expr)
  /-- Forms up to the parenthesis that closes them. -/
  | items (es : List Expr)

/-- A text that starts at an offset and is read as a part of a program where `next` follows it. -/
inductive PartAt : (offset : Nat) → (text : List Char) → Part → (next : List Char) → Prop
  | int {o : Nat} {ds next : List Char} (hds : IsInteger ds) (hend : TokenEnds false next) :
    PartAt o ds (.form (.int (Int64.ofNat (Nat.ofDigitChars 10 ds 0)) (spanAt o ds))) next
  | name {o : Nat} {x next : List Char} (hx : IsIdentifier x) (hend : TokenEnds false next) :
    PartAt o x (.form (.name (String.ofList x) (spanAt o x))) next
  | ref {o : Nat} {b w next : List Char} {e : Expr} (hb : Blanks b)
      (h : PartAt (o + 1 + byteLength b) w (.form e) next) :
    PartAt o ('&' :: (b ++ w)) (.form (.ref e (spanAt o ('&' :: (b ++ w))))) next
  | define {o : Nat} {b₁ b₂ b₃ x ps w next : List Char} {params : List String} {body : List Expr} {s : Span}
      (hb₁ : Blanks b₁) (hdef : TokenEnds true (b₂ ++ x)) (hb₂ : Blanks b₂) (hx : IsIdentifier x)
      (hname : TokenEnds true (b₃ ++ ['('])) (hb₃ : Blanks b₃) (hps : Params ps params)
      (hbody : PartAt
        (o + 1 + byteLength b₁ + 3 + byteLength b₂ + byteLength x + byteLength b₃ + 1 + byteLength ps)
        w (.items body) next) (hne : body ≠ [])
      (hs : s = spanAt o ('(' :: (b₁ ++ 'd' :: 'e' :: 'f' :: (b₂ ++ (x ++ (b₃ ++ '(' :: (ps ++ w))))))) :
    PartAt o ('(' :: (b₁ ++ 'd' :: 'e' :: 'f' :: (b₂ ++ (x ++ (b₃ ++ '(' :: (ps ++ w))))))
      (.form (.define ⟨String.ofList x, params, body, s⟩ s)) next
  | branch {o : Nat} {b₁ b₂ t w next : List Char} {test : Call} {st s : Span} {yes : Expr} {no : Option Expr}
      (hb₁ : Blanks b₁) (hif : TokenEnds true (b₂ ++ t)) (hb₂ : Blanks b₂)
      (ht : PartAt (o + 1 + byteLength b₁ + 2 + byteLength b₂) t (.form (.call test st)) (w ++ next))
      (hw : PartAt (o + 1 + byteLength b₁ + 2 + byteLength b₂ + byteLength t) w (.items (yes :: no.toList)) next)
      (hs : s = spanAt o ('(' :: (b₁ ++ 'i' :: 'f' :: (b₂ ++ (t ++ w))))) :
    PartAt o ('(' :: (b₁ ++ 'i' :: 'f' :: (b₂ ++ (t ++ w)))) (.form (.branch test yes no s)) next
  | call {o : Nat} {b x w next : List Char} {args : List Expr} {s : Span} (hb : Blanks b) (hx : IsOperand x)
      (hdef : x ≠ ['d', 'e', 'f']) (hif : x ≠ ['i', 'f']) (hhead : TokenEnds true w)
      (hargs : PartAt (o + 1 + byteLength b + byteLength x) w (.items args) next)
      (hs : s = spanAt o ('(' :: (b ++ (x ++ w)))) :
    PartAt o ('(' :: (b ++ (x ++ w))) (.form (.call ⟨String.ofList x, args, s⟩ s)) next
  | close {o : Nat} {b next : List Char} (hb : Blanks b) : PartAt o (b ++ [')']) (.items []) next
  | item {o : Nat} {b w ws next : List Char} {e : Expr} {es : List Expr} (hb : Blanks b)
      (h : PartAt (o + byteLength b) w (.form e) (ws ++ next))
      (hs : PartAt (o + byteLength b + byteLength w) ws (.items es) next) :
    PartAt o (b ++ (w ++ ws)) (.items (e :: es)) next

inductive FormsAt : (offset : Nat) → (text : List Char) → List Expr → Prop
  | nil {o : Nat} {b : List Char} (hb : Blanks b) : FormsAt o b []
  | cons {o : Nat} {b w ws : List Char} {e : Expr} {es : List Expr} (hb : Blanks b)
      (h : PartAt (o + byteLength b) w (.form e) ws) (hs : FormsAt (o + byteLength b + byteLength w) ws es) :
    FormsAt o (b ++ (w ++ ws)) (e :: es)

def SpacedAt (offset : Nat) (text : List Char) (e : Expr) (next : List Char) : Prop :=
  ∃ b w, text = b ++ w ∧ Blanks b ∧ PartAt (offset + byteLength b) w (.form e) next

theorem PartAt.ne_nil {o : Nat} {w next : List Char} {part : Part} (h : PartAt o w part next) : w ≠ [] := by
  induction h with
  | int hds _ => exact hds.ne_nil
  | name hx _ => exact hx.ne_nil
  | item _ _ _ ih _ => simp [ih]
  | _ => simp

theorem PartAt.span_eq {o : Nat} {w next : List Char} {e : Expr} (h : PartAt o w (.form e) next) :
    e.span = spanAt o w := by
  cases h with
  | int _ _ | name _ _ | ref _ _ => rfl
  | define _ _ _ _ _ _ _ _ _ hs | branch _ _ _ _ _ hs | call _ _ _ _ _ _ hs => exact hs

theorem PartAt.spacedAt {o : Nat} {w next : List Char} {e : Expr} (h : PartAt o w (.form e) next) :
    SpacedAt o w e next := ⟨[], w, rfl, .nil, h⟩

namespace SpacedAt
variable {o : Nat} {b w ws next : List Char} {e : Expr} {es : List Expr}

theorem blanks_append (hb : Blanks b) (h : SpacedAt (o + byteLength b) w e next) : SpacedAt o (b ++ w) e next := by
  obtain ⟨b', v, rfl, hb', hv⟩ := h
  refine ⟨b ++ b', v, (List.append_assoc _ _ _).symm, hb.append hb', ?_⟩
  rwa [byteLength_append, ← Nat.add_assoc]

theorem item (h : SpacedAt o w e (ws ++ next)) (hs : PartAt (o + byteLength w) ws (.items es) next) :
    PartAt o (w ++ ws) (.items (e :: es)) next := by
  obtain ⟨b, v, rfl, hb, hv⟩ := h
  rw [byteLength_append, ← Nat.add_assoc] at hs
  rw [List.append_assoc]
  exact .item hb hv hs

theorem cons (h : SpacedAt o w e ws) (hs : FormsAt (o + byteLength w) ws es) : FormsAt o (w ++ ws) (e :: es) := by
  obtain ⟨b, v, rfl, hb, hv⟩ := h
  rw [byteLength_append, ← Nat.add_assoc] at hs
  rw [List.append_assoc]
  exact .cons hb hv hs

end SpacedAt

/-- The branches of a conditional, from what a function makes of them. -/
theorem exists_cons_toList_of_map {α β : Type} {f : α → β} {as : List α} {b : β} {no : Option β}
    (h : as.map f = b :: no.toList) :
    ∃ (a : α) (no' : Option α), as = a :: no'.toList ∧ f a = b ∧ no'.map f = no := by
  obtain ⟨a, rest, rfl, rfl, hrest⟩ := List.map_eq_cons_iff.mp h
  cases no with
  | none => exact ⟨a, none, by simpa using hrest, rfl, rfl⟩
  | some b' =>
    obtain ⟨a', rfl, rfl⟩ := List.map_eq_singleton_iff.mp hrest
    exact ⟨a, some a', rfl, rfl, rfl⟩

/-! ## The grammar without places -/

def Part.Spelled (text next : List Char) : Part → Prop
  | .form e => Form text e.bare next
  | .items es => Items text (es.map Expr.bare) next

theorem PartAt.spelled {o : Nat} {w next : List Char} {part : Part} (h : PartAt o w part next) :
    part.Spelled w next := by
  induction h with
  | int hds hend =>
    rw [Part.Spelled, Expr.bare]
    exact .int .nil hds hend
  | name hx hend =>
    rw [Part.Spelled, Expr.bare]
    exact .name .nil hx hend
  | ref hb _ ih =>
    rw [Part.Spelled, Expr.bare]
    exact .ref .nil (ih.blanks_append hb)
  | define hb₁ hdef hb₂ hx hname hb₃ hps _ hne _ ih =>
    rw [Part.Spelled, Expr.bare, Definition.bare_eq]
    simpa using Form.define .nil hb₁ hdef hb₂ hx hname hb₃ hps ih (by simpa using hne)
  | @branch _ _ _ _ w _ _ _ _ _ _ hb₁ hif hb₂ ht _ _ iht ihw =>
    have htest := iht.blanks_append hb₂
    rw [Expr.bare] at htest
    rw [Part.Spelled, List.map_cons, ← Option.toList_map] at ihw
    rw [Part.Spelled, Expr.bare_branch]
    have hend := (tokenEnds_append (by simp [ht.ne_nil]) w).mpr hif
    simpa using Form.branch .nil hb₁ hend htest ihw
  | call hb hx hdef hif hhead _ _ ih =>
    rw [Part.Spelled, Expr.bare, Call.bare_eq]
    simpa using Form.call .nil hb hx hdef hif hhead ih
  | close hb => exact .close hb
  | item hb _ _ ih ihs =>
    rw [Part.Spelled, List.map_cons, ← List.append_assoc]
    exact .cons (ih.blanks_append hb) ihs

theorem FormsAt.forms {o : Nat} {w : List Char} {es : List Expr} (h : FormsAt o w es) :
    Forms w (es.map Expr.bare) := by
  induction h with
  | nil hb => exact .nil hb
  | cons hb h _ ih =>
    rw [List.map_cons, ← List.append_assoc]
    exact .cons (h.spelled.blanks_append hb) ih

/-- A form of the grammar is the form of some tree with spans wherever it starts. -/
theorem Form.exists_spacedAt {w next : List Char} {e : Expr} (h : Form w e next) :
    ∀ o, ∃ e', SpacedAt o w e' next ∧ e'.bare = e := by
  refine Form.rec (motive_1 := fun w e next _ => ∀ o, ∃ e', SpacedAt o w e' next ∧ e'.bare = e)
    (motive_2 := fun w es next _ => ∀ o, ∃ es', PartAt o w (.items es') next ∧ es'.map Expr.bare = es)
    ?int ?name ?ref ?define ?branch ?call ?close ?cons h
  case int =>
    intro b ds next hb hds hend o
    refine ⟨_, ⟨b, ds, rfl, hb, .int hds hend⟩, ?_⟩
    rw [Expr.bare]
  case name =>
    intro b x next hb hx hend o
    refine ⟨_, ⟨b, x, rfl, hb, .name hx hend⟩, ?_⟩
    rw [Expr.bare]
  case ref =>
    intro b w next e hb _ ih o
    obtain ⟨e', ⟨b', w, rfl, hb', hat⟩, rfl⟩ := ih (o + byteLength b + 1)
    refine ⟨_, ⟨b, _, rfl, hb, .ref hb' hat⟩, ?_⟩
    rw [Expr.bare]
  case define =>
    intro b b₁ b₂ b₃ x ps w next params body hb hb₁ hdef hb₂ hx hname hb₃ hps _ hne ih o
    obtain ⟨body', hat, rfl⟩ := ih (o + byteLength b + 1 + byteLength b₁ + 3 + byteLength b₂ + byteLength x +
      byteLength b₃ + 1 + byteLength ps)
    have hne' : body' ≠ [] := by simpa using hne
    refine ⟨_, ⟨b, _, by simp, hb, .define hb₁ hdef hb₂ hx hname hb₃ hps hat hne' rfl⟩, ?_⟩
    rw [Expr.bare, Definition.bare_eq]
  case branch =>
    intro b b₁ t w next test yes no hb hb₁ hif _ hw iht ihw o
    obtain ⟨test', ⟨b₂, t, rfl, hb₂, htest⟩, hbare⟩ := iht (o + byteLength b + 1 + byteLength b₁ + 2)
    obtain ⟨c, s, rfl, rfl⟩ := Expr.exists_call_of_bare hbare
    obtain ⟨items, hitems, hbares⟩ :=
      ihw (o + byteLength b + 1 + byteLength b₁ + 2 + byteLength b₂ + byteLength t)
    obtain ⟨yes', no', rfl, rfl, rfl⟩ := exists_cons_toList_of_map hbares
    have hend := (tokenEnds_append (by simp [htest.ne_nil]) w).mp hif
    refine ⟨_, ⟨b, _, by simp, hb, .branch hb₁ hend hb₂ htest hitems rfl⟩, ?_⟩
    rw [Expr.bare_branch]
  case call =>
    intro b b₁ x w next args hb hb₁ hx hdef hif hhead _ ih o
    obtain ⟨args', hat, rfl⟩ := ih _
    refine ⟨_, ⟨b, _, by simp, hb, .call hb₁ hx hdef hif hhead hat rfl⟩, ?_⟩
    rw [Expr.bare, Call.bare_eq]
  case close => exact fun hb o => ⟨[], .close hb, rfl⟩
  case cons =>
    intro w ws next e es _ _ ih ihs o
    obtain ⟨e', hat, rfl⟩ := ih o
    obtain ⟨es', hats, rfl⟩ := ihs (o + byteLength w)
    exact ⟨e' :: es', hat.item hats, rfl⟩

theorem Forms.exists_formsAt {w : List Char} {es : List Expr} (h : Forms w es) :
    ∀ o, ∃ es', FormsAt o w es' ∧ es'.map Expr.bare = es := by
  induction h with
  | nil hb => exact fun o => ⟨[], .nil hb, rfl⟩
  | @cons w _ _ _ h _ ih =>
    intro o
    obtain ⟨e', hat, rfl⟩ := h.exists_spacedAt o
    obtain ⟨es', hats, rfl⟩ := ih (o + byteLength w)
    exact ⟨e' :: es', hat.cons hats, rfl⟩

end SmallLisp
