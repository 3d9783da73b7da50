import SmallLisp.Source.Bytes
import SmallLisp.Source.Span

/-!
# Cursors

A cursor is the text not yet read together with the byte offset at which it starts. It only moves
forward, over whole characters, and the text has ended where nothing is left of it. `ByteCursor` goes
through a text byte by byte.
-/
namespace SmallLisp

/-- The characters that may stand between two tokens. -/
def isBlank (c : Char) : Bool := c == ' ' || c == '\t' || c == '\r' || c == '\n'

structure Cursor where
  offset : Nat
  rest : List Char
deriving DecidableEq

namespace Cursor

def ofText (text : String) : Cursor := ⟨0, text.toList⟩

/-- Past the next character, if there is one. -/
def advance : Cursor → Cursor
  | ⟨offset, []⟩ => ⟨offset, []⟩
  | ⟨offset, c :: cs⟩ => ⟨offset + c.utf8Size, cs⟩

def skip (p : Char → Bool) (c : Cursor) : Cursor :=
  ⟨c.offset + byteLength (c.rest.takeWhile p), c.rest.dropWhile p⟩

/-- The span of the next character, empty at the end of the text. -/
def charSpan (c : Cursor) : Span := .ofOffsets c.offset c.advance.offset

/-- The span from an offset up to the cursor. -/
def spanFrom (c : Cursor) (start : Nat) : Span := .ofOffsets start c.offset

theorem offset_le_advance (c : Cursor) : c.offset ≤ c.advance.offset := by
  rcases c with ⟨o, _ | ⟨x, r⟩⟩ <;> simp [advance]

theorem offset_le_skip (p : Char → Bool) (c : Cursor) : c.offset ≤ (c.skip p).offset :=
  Nat.le_add_right _ _

/-- Skipping drops a run of the class and stops at a character outside it. -/
theorem takeWhile_append_skip (p : Char → Bool) (c : Cursor) :
    c.rest.takeWhile p ++ (c.skip p).rest = c.rest := List.takeWhile_append_dropWhile

/-- Where a cursor stands and what is left of the text always add up to the length of the text. -/
theorem skip_total (p : Char → Bool) (c : Cursor) :
    (c.skip p).offset + byteLength (c.skip p).rest = c.offset + byteLength c.rest := by
  conv => rhs; rw [← takeWhile_append_skip p c, byteLength_append]
  simp [skip, Nat.add_assoc]

theorem advance_total (c : Cursor) :
    c.advance.offset + byteLength c.advance.rest = c.offset + byteLength c.rest := by
  rcases c with ⟨o, _ | ⟨x, r⟩⟩ <;> simp [advance, Nat.add_assoc]

end Cursor
end SmallLisp
