import SmallLisp.Diagnostic.Terminal
import SmallLisp.Proofs.LineStarts

/-! # Underlines

Where a span covers some characters, the label at it names the line and the column of the first of them and shows
that line, and the underline starts below it. As many columns are marked as the span has bytes, so the mark ends
with the span where its characters are bytes, or with the line; otherwise characters behind the span are marked too.
-/
namespace SmallLisp

/-! ## Spans on a line -/

/-- A span that covers some characters of a text, with the text cut before and behind them. -/
structure Excerpt (source : String) (span : Span) where
  before : List Char
  inside : List Char
  after : List Char
  toList_source : source.toList = before ++ (inside ++ after)
  start_eq : span.start = byteLength before
  stop_eq : span.stop = byteLength before + byteLength inside
  stop_le : span.stop ≤ maxOffset
  inside_ne_nil : inside ≠ []

namespace Excerpt
variable {source : String} {span : Span}

/-- The spans that cover something are those at which a part of the text that is not empty can be cut out. -/
theorem nonempty_iff : Nonempty (Excerpt source span) ↔
    span.stop ≤ maxOffset ∧ ∃ text, slice? span.start span.stop source.toList = some text ∧ text ≠ [] := by
  constructor
  · rintro ⟨x⟩
    exact ⟨x.stop_le, x.inside, slice?_eq_some_iff.mpr ⟨_, _, x.toList_source, x.start_eq, x.stop_eq⟩,
      x.inside_ne_nil⟩
  · rintro ⟨hstop, text, hslice, hne⟩
    obtain ⟨before, after, hsource, hstart, hend⟩ := slice?_eq_some_iff.mp hslice
    exact ⟨⟨before, text, after, hsource, hstart, hend, hstop, hne⟩⟩

variable (x : Excerpt source span)

def line : Nat := x.before.count '\n' + 1

def indent : List Char := x.before.rtakeWhile inLine

/-- The other part of that line, which begins with the span. -/
def rest : List Char := (x.inside ++ x.after).takeWhile inLine

/-- That line without the carriage returns that end it. -/
def shown : List Char := (x.indent ++ x.rest).rdropWhile (· == '\r')

def marked : List Char := (x.shown.drop x.indent.length).take x.inside.length

/-- The next line starts within the limit of offsets, if there is one. -/
def LineFits : Prop := '\n' ∈ x.inside ++ x.after → byteLength x.before + byteLength x.rest + 1 ≤ maxOffset

/-- Number of columns that the underline marks. -/
def width : Nat := max 1 (min (byteLength x.inside) (x.shown.length - x.indent.length))

theorem start_lt : byteLength x.before < maxOffset := by
  have hpos := byteLength_pos x.inside_ne_nil
  have hstop := x.stop_eq
  have hle := x.stop_le
  omega

theorem span_length : span.length = byteLength x.inside := by
  rw [Span.length, x.start_eq, x.stop_eq, Nat.add_sub_cancel_left]

/-- The snippet of a span is its line, from the column of its first character on. -/
theorem snippet_ofText (path : String) (hfits : x.LineFits) : (SourceFile.ofText path source).snippet span =
    ⟨x.line, x.indent.length + 1, String.ofList x.shown, x.width⟩ := by
  have hposition : (LineTable.ofText source).position source span.start = (x.line, x.indent.length + 1) := by
    rw [x.start_eq, LineTable.position_ofText x.toList_source x.start_lt, line, indent]
  have htext : (LineTable.ofText source).lineText? source x.line = some (String.ofList x.shown) :=
    LineTable.lineText?_ofText x.toList_source x.start_lt hfits
  simp only [SourceFile.snippet, SourceFile.ofText, hposition, htext, Option.getD_some, x.span_length,
    String.length_ofList, Nat.add_sub_cancel]
  rfl

theorem length_marked : x.marked.length = min x.inside.length (x.shown.length - x.indent.length) := by
  rw [marked, List.length_take, List.length_drop]

/-- Bytes and characters mark the same columns exactly if each character of the span is one byte or the line ends
with the span or within it. -/
theorem width_eq_iff : x.width = max 1 x.marked.length ↔
    (∀ c ∈ x.inside, c.utf8Size = 1) ∨ x.shown.length ≤ x.indent.length + x.inside.length := by
  have hpos := List.length_pos_iff.mpr x.inside_ne_nil
  have hle := length_le_byteLength x.inside
  rw [← byteLength_eq_length_iff, width, length_marked]
  omega

def margin : String := Terminal.spaces (toString x.line).length

def frame (t : Terminal) (path : String) (l : Label) (marks : Nat) : String :=
  x.margin ++ (if l.primary then "-->" else ":::") ++ " " ++ path ++ ":" ++ toString x.line ++ ":"
    ++ toString (x.indent.length + 1) ++ "\n"
    ++ x.margin ++ " |\n"
    ++ toString x.line ++ " | " ++ String.ofList x.shown ++ "\n"
    ++ x.margin ++ " | " ++ Terminal.spaces x.indent.length
    ++ t.paint (Terminal.labelColor l) (String.ofList (List.replicate marks (if l.primary then '^' else '-')))
    ++ (if l.message.isEmpty then "" else " " ++ t.paint (Terminal.labelColor l) l.message) ++ "\n"

theorem length_paint_inj {t : Terminal} {color : Color} {text text' : String} :
    (t.paint color text).length = (t.paint color text').length ↔ text.length = text'.length := by
  rw [Terminal.paint, Terminal.paint]
  split
  · simp only [String.length_append, Nat.add_right_cancel_iff, Nat.add_left_cancel_iff]
  · rfl

theorem frame_inj {t : Terminal} {path : String} {l : Label} {m n : Nat} :
    x.frame t path l m = x.frame t path l n ↔ m = n := by
  refine ⟨fun h => ?_, fun h => h ▸ rfl⟩
  have hlength := congrArg String.length h
  unfold frame at hlength
  simpa only [String.length_append, Nat.add_right_cancel_iff, Nat.add_left_cancel_iff, length_paint_inj,
    String.length_ofList, List.length_replicate] using hlength

end Excerpt

/-! ## Labels -/

/-- A label shows the line of its span, with the marks from the column of the first character on. They are below the
characters of the line inside the span, and no others, exactly if each of these characters is one byte or the line
ends with the span or within it. -/
theorem Terminal.label_eq_frame {source : String} {l : Label} (t : Terminal) (path : String)
    (x : Excerpt source l.span) (hsource : t.source = some (.ofText path source)) (hfits : x.LineFits) :
    t.label l = x.frame t path l x.width ∧
    (t.label l = x.frame t path l (max 1 x.marked.length) ↔
      (∀ c ∈ x.inside, c.utf8Size = 1) ∨ x.shown.length ≤ x.indent.length + x.inside.length) := by
  have hlabel : t.label l = x.frame t path l x.width := by
    rw [Terminal.label, hsource]
    unfold snippetLabel Excerpt.frame Excerpt.margin
    simp only [x.snippet_ofText path hfits, Nat.add_sub_cancel]
    rfl
  exact ⟨hlabel, by rw [hlabel, x.frame_inj, x.width_eq_iff]⟩

/-- A call over two lines, on a line with a character of two bytes before it. -/
def Excerpt.overTwoLines : Excerpt "(f é (+ 1\r\n 2))" ⟨6, 15⟩ where
  before := "(f é ".toList
  inside := "(+ 1\r\n 2)".toList
  after := [')']
  toList_source := by decide
  start_eq := by decide
  stop_eq := by decide
  stop_le := by decide
  inside_ne_nil := by decide

/-- What is marked of a call over two lines is its part on the first of them. -/
theorem Terminal.label_eq_frame_overTwoLines : Excerpt.overTwoLines.LineFits ∧
    Excerpt.overTwoLines.marked = "(+ 1".toList ∧
    Terminal.label ⟨false, some (.ofText "p" "(f é (+ 1\r\n 2))")⟩ ⟨⟨6, 15⟩, "here", true⟩ =
      Excerpt.overTwoLines.frame ⟨false, some (.ofText "p" "(f é (+ 1\r\n 2))")⟩ "p"
        ⟨⟨6, 15⟩, "here", true⟩ 4 := by
  have hfits : Excerpt.overTwoLines.LineFits := fun _ => by decide
  have hmarked : Excerpt.overTwoLines.marked = "(+ 1".toList := by decide
  have hlabel := (Terminal.label_eq_frame ⟨false, some (.ofText "p" "(f é (+ 1\r\n 2))")⟩ "p" Excerpt.overTwoLines
    rfl hfits (l := ⟨⟨6, 15⟩, "here", true⟩)).2.mpr (.inl (byteLength_eq_length_iff.mp (by decide)))
  rw [hmarked] at hlabel
  exact ⟨hfits, hmarked, hlabel⟩

def Excerpt.accented : Excerpt "(+ é 1)" ⟨3, 5⟩ where
  before := "(+ ".toList
  inside := ['é']
  after := " 1)".toList
  toList_source := by decide
  start_eq := by decide
  stop_eq := by decide
  stop_le := by decide
  inside_ne_nil := by decide

/-- A character of two bytes is marked with the character behind it. -/
theorem Terminal.label_accented : Excerpt.accented.marked = ['é'] ∧
    Terminal.label ⟨false, some (.ofText "p" "(+ é 1)")⟩ ⟨⟨3, 5⟩, "unexpected here", true⟩ =
      " --> p:1:4\n  |\n1 | (+ é 1)\n  |    ^^ unexpected here\n" ∧
    Terminal.label ⟨false, some (.ofText "p" "(+ é 1)")⟩ ⟨⟨3, 5⟩, "unexpected here", true⟩ ≠
      Excerpt.accented.frame ⟨false, some (.ofText "p" "(+ é 1)")⟩ "p" ⟨⟨3, 5⟩, "unexpected here", true⟩
        (max 1 Excerpt.accented.marked.length) := by
  decide +kernel

end SmallLisp
