import SmallLisp.Source.Bytes
import SmallLisp.Source.Search
import SmallLisp.Source.Span

/-!
# Lines and columns

A line table holds the byte offset at which each line of a text starts. Lines and columns count
from one; a column counts characters. Offsets and columns are held up to `maxOffset`, as in spans.
-/
namespace SmallLisp

/-- Starts of the lines that begin after a newline of `cs`, where `cs` begins at byte `offset`. -/
def startsAfterNewlines (offset : Nat) : List Char → List Nat
  | [] => []
  | c :: cs =>
    let next := offset + c.utf8Size
    if c = '\n' then min next maxOffset :: startsAfterNewlines next cs else startsAfterNewlines next cs

structure LineTable where
  starts : List Nat

namespace LineTable

def ofText (text : String) : LineTable := ⟨0 :: startsAfterNewlines 0 text.toList⟩

def lineCount (t : LineTable) : Nat := t.starts.length

/-- The last line that starts at or before `offset`. -/
def lineAt (t : LineTable) (offset : Nat) : Nat :=
  match search t.starts offset 0 t.starts.length (Nat.le_refl _) with
  | .ok i => i + 1
  | .error i => i - 1 + 1

def lineStart? (t : LineTable) : Nat → Option Nat
  | 0 => none
  | n + 1 => t.starts[n]?

/-- Line and column of an offset in `source`; an offset past the end stands for the end. Where the
offset splits a character the column counts bytes. -/
def position (t : LineTable) (source : String) (offset : Nat) : Nat × Nat :=
  let line := t.lineAt offset
  let start := (t.lineStart? line).getD 0
  let stop := min offset (byteLength source.toList)
  let width := match slice? start stop source.toList with
    | some text => text.length
    | none => stop - start
  (line, min (width + 1) maxOffset)

/-- A line of `source` without the newlines and carriage returns that end it. -/
def lineText? (t : LineTable) (source : String) (line : Nat) : Option String := do
  let start ← t.lineStart? line
  let stop := (t.lineStart? (line + 1)).getD (byteLength source.toList)
  let text ← slice? start stop source.toList
  return String.ofList (text.reverse.dropWhile (fun c => c == '\n' || c == '\r')).reverse

end LineTable
end SmallLisp
