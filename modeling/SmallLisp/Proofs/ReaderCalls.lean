import SmallLisp.Proofs.ReadingPlaces

/-! # Calls on one reader

A reader may be asked for one form or for all that are left, again and again and also after a fault: each call goes on
where the one before it stopped. Whatever the calls are, the places that their replies give are those of the text, and
they never go back.
-/
namespace SmallLisp

inductive Request where
  | form | program
deriving DecidableEq

def Request.run : Request → Parser (List Expr)
  | .form => (fun e => [e]) <$> Parser.expr
  | .program => Parser.program

/-- What a call gives, with the cursor before and after it. A fault leaves the cursor where reading stopped. -/
structure Reply where
  request : Request
  before : Cursor
  outcome : Except ParseError (List Expr)
  after : Cursor

def Request.reply (r : Request) (c : Cursor) : Reply :=
  match r.run c with
  | .ok forms c' => ⟨r, c, .ok forms, c'⟩
  | .error e c' => ⟨r, c, .error e, c'⟩

def replies (c : Cursor) : List Request → List Reply
  | [] => []
  | r :: rs => r.reply c :: replies (r.reply c).after rs

structure Reply.Exact (source : List Char) (r : Reply) : Prop where
  before_cut : IsCut source r.before.offset
  after_cut : IsCut source r.after.offset
  /-- The text between the two places, which is made of characters of one byte. -/
  passed : ∃ w, slice? r.before.offset r.after.offset source = some w ∧ ∀ x ∈ w, x.utf8Size = 1
  progress : ∀ forms, r.request = .form → r.outcome = .ok forms → r.before.offset < r.after.offset
  /-- What is found is the next character, and the span is that of its bytes. -/
  found : ∀ e found, r.outcome = .error e → e.fault.found? = some found →
    e.span = ⟨r.after.offset, r.after.offset + found.utf8Size⟩ ∧
      slice? e.span.start e.span.stop source = some [found]
  atEnd : ∀ e expected, r.outcome = .error e → e.fault = .unexpectedEnd expected →
    r.after.offset = byteLength source

namespace Request
variable {source : List Char} {c : Cursor}

theorem run_moves (r : Request) : Parser.Moves r.run c := by
  cases r with
  | form => exact Parser.expr_moves.bind fun _ _ => .pure
  | program => exact Parser.program_moves

theorem reply_cases (r : Request) (c : Cursor) :
    (∃ forms c', r.run c = .ok forms c' ∧ r.reply c = ⟨r, c, .ok forms, c'⟩) ∨
    ∃ e c', r.run c = .error e c' ∧ r.reply c = ⟨r, c, .error e, c'⟩ := by
  unfold reply
  cases hrun : r.run c with
  | ok forms c' => exact .inl ⟨forms, c', rfl, rfl⟩
  | error e c' => exact .inr ⟨e, c', rfl, rfl⟩

theorem offset_lt_of_run {forms : List Expr} {c' : Cursor} (h : form.run c = .ok forms c') : c.offset < c'.offset := by
  cases he : Parser.expr c with
  | error e c₁ =>
    change EStateM.map _ _ _ = _ at h
    rw [EStateM.map, he] at h
    cases h
  | ok e c₁ =>
    change EStateM.map _ _ _ = _ at h
    rw [EStateM.map, he] at h
    cases h
    exact Parser.offset_lt_of_expr he

theorem reply_reaches (r : Request) (c : Cursor) : c.Reaches (r.reply c).after := by
  have hmoves := r.run_moves (c := c)
  unfold Parser.Moves at hmoves
  rcases r.reply_cases c with ⟨forms, c', hrun, hreply⟩ | ⟨e, c', hrun, hreply⟩
  · rw [hrun] at hmoves
    rwa [hreply]
  · rw [hrun] at hmoves
    rw [hreply]
    exact hmoves.1

end Request

/-- What one call keeps. -/
theorem Request.reply_exact {source : List Char} {c : Cursor} (r : Request) (hc : c.In source)
    (hlen : byteLength source ≤ maxOffset) : (r.reply c).Exact source := by
  have hreaches := r.reply_reaches c
  have hmoves := r.run_moves (c := c)
  unfold Parser.Moves at hmoves
  rcases r.reply_cases c with ⟨forms, c', hrun, hreply⟩ | ⟨e, c', hrun, hreply⟩
  · rw [hreply] at hreaches ⊢
    constructor
    case before_cut => exact hc.isCut
    case after_cut => exact (hreaches.in_source hc).isCut
    case passed => exact hreaches.exists_slice hc
    case progress =>
      rintro _ rfl _
      exact offset_lt_of_run hrun
    case found => exact nofun
    case atEnd => exact nofun
  · rw [hrun] at hmoves
    rw [hreply] at hreaches ⊢
    have hc' := hreaches.in_source hc
    constructor
    case before_cut => exact hc.isCut
    case after_cut => exact hc'.isCut
    case passed => exact hreaches.exists_slice hc
    case progress => exact nofun
    case found =>
      rintro _ found ⟨⟩ hfound
      exact hmoves.2.found hc' hlen hfound
    case atEnd =>
      rintro _ expected ⟨⟩ hend
      exact (hmoves.2.at_end hc' hend).1

/-- What any number of calls keep. -/
theorem replies_exact_from {source : List Char} (hlen : byteLength source ≤ maxOffset) (requests : List Request) :
    ∀ {c : Cursor}, c.In source → (∀ r ∈ replies c requests, r.Exact source) ∧
      (c.offset :: (replies c requests).map (·.after.offset)).Pairwise (· ≤ ·) := by
  induction requests with
  | nil => exact fun _ => ⟨nofun, List.pairwise_singleton _ _⟩
  | cons r requests ih =>
    intro c hc
    have hreaches := r.reply_reaches c
    obtain ⟨hexact, hsorted⟩ := ih (hreaches.in_source hc)
    refine ⟨List.forall_mem_cons.mpr ⟨r.reply_exact hc hlen, hexact⟩, List.pairwise_cons.mpr ⟨?_, hsorted⟩⟩
    intro offset hoffset
    rcases List.mem_cons.mp hoffset with rfl | hlater
    · exact hreaches.offset_le
    · exact Nat.le_trans hreaches.offset_le (List.rel_of_pairwise_cons hsorted hlater)

/-- Whatever calls are made on one reader, the places of all replies are those of the text, and they never go back. -/
theorem replies_exact {source : String} (hlen : byteLength source.toList < 4294967296) (requests : List Request) :
    (∀ r ∈ replies (.ofText source) requests, r.Exact source.toList) ∧
      ((replies (.ofText source) requests).map (·.after.offset)).Pairwise (· ≤ ·) := by
  have hkeep := replies_exact_from (Nat.le_of_lt_succ hlen) requests (c := .ofText source) ⟨[], rfl, rfl⟩
  exact ⟨hkeep.1, (List.pairwise_cons.mp hkeep.2).2⟩

/-- A character of two bytes stops the reader, and stops it again. -/
theorem replies_exact_accent :
    (replies (.ofText "(f) é") [.form, .form, .program]).map Reply.outcome =
      [.ok [.call ⟨"f", [], ⟨0, 3⟩⟩ ⟨0, 3⟩], .error ⟨.unexpectedChar 'é' .expression, ⟨4, 6⟩⟩,
        .error ⟨.unexpectedChar 'é' .expression, ⟨4, 6⟩⟩] ∧
    ∀ r ∈ replies (.ofText "(f) é") [.form, .form, .program], r.Exact "(f) é".toList :=
  ⟨by rfl, (replies_exact (by decide) _).1⟩

end SmallLisp
