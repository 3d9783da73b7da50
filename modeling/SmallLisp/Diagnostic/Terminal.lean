import SmallLisp.Diagnostic.Basic
import SmallLisp.Source.LineTable

/-!
# Diagnostics on a terminal

With the source at hand a label shows the place as `path:line:column`, the line itself and an
underline below the labelled characters; without it only the byte offsets are shown. The width of
an underline counts bytes of the span, cut at the end of the line that is shown.
-/
namespace SmallLisp

inductive ColorMode where
  | auto | always | never
deriving DecidableEq

/-- Without an explicit choice, colours appear on a terminal only. -/
def ColorMode.enabled (mode : ColorMode) (isTerminal : Bool) : Bool :=
  match mode with
  | auto => isTerminal
  | always => true
  | never => false

inductive Color where
  | red | yellow | cyan | blue | default

def Color.code : Color → String
  | red => "\x1b[1;31m"
  | yellow => "\x1b[1;33m"
  | cyan => "\x1b[1;36m"
  | blue => "\x1b[1;34m"
  | default => "\x1b[1m"

def Severity.color : Severity → Color
  | error => .red
  | warning => .yellow
  | note => .cyan

structure SourceFile where
  path : String
  text : String
  lines : LineTable

def SourceFile.ofText (path text : String) : SourceFile := ⟨path, text, .ofText text⟩

/-- The shown line of a label, with the columns that are underlined. -/
structure Snippet where
  line : Nat
  column : Nat
  text : String
  width : Nat

/-- The line that holds the start of a span. The underline starts at the span's column and is as wide
as the span has bytes, but ends with the line, and marks one column at least. -/
def SourceFile.snippet (file : SourceFile) (span : Span) : Snippet :=
  let (line, column) := file.lines.position file.text span.start
  let text := (file.lines.lineText? file.text line).getD ""
  ⟨line, column, text, max 1 (min span.length (text.length - (column - 1)))⟩

structure Terminal where
  colors : Bool := false
  source : Option SourceFile := none

namespace Terminal

def paint (t : Terminal) (color : Color) (text : String) : String :=
  if t.colors then color.code ++ text ++ "\x1b[0m" else text

def labelColor (l : Label) : Color := if l.primary then .red else .blue

def spaces (n : Nat) : String := String.ofList (List.replicate n ' ')

def bareLabel (t : Terminal) (l : Label) : String :=
  "  " ++ (if l.primary then "-->" else "   ") ++ " " ++ l.span.text ++ ": "
    ++ t.paint (labelColor l) l.message ++ "\n"

/-- A label by its place, its line and an underline; the message follows the underline. -/
def snippetLabel (t : Terminal) (file : SourceFile) (l : Label) : String :=
  let s := file.snippet l.span
  let gutter := toString s.line
  let pad := spaces gutter.length
  let mark := String.ofList (List.replicate s.width (if l.primary then '^' else '-'))
  pad ++ (if l.primary then "-->" else ":::") ++ " " ++ file.path ++ ":" ++ toString s.line ++ ":"
    ++ toString s.column ++ "\n"
    ++ pad ++ " |\n"
    ++ gutter ++ " | " ++ s.text ++ "\n"
    ++ pad ++ " | " ++ spaces (s.column - 1) ++ t.paint (labelColor l) mark
    ++ (if l.message.isEmpty then "" else " " ++ t.paint (labelColor l) l.message) ++ "\n"

def label (t : Terminal) (l : Label) : String :=
  match t.source with
  | some file => t.snippetLabel file l
  | none => t.bareLabel l

def render (t : Terminal) (d : Diagnostic) : String :=
  t.paint d.severity.color d.severity.text ++ t.paint .default ("[" ++ d.code.text ++ "]") ++ ": "
    ++ d.message ++ "\n"
    ++ String.join (d.labels.map t.label)
    ++ String.join (d.notes.map (fun note => "  = " ++ t.paint .default "note" ++ ": " ++ note ++ "\n"))
    ++ "\n"

def summary (t : Terminal) (errors warnings : Nat) : String :=
  let emitted := toString warnings ++ " warning" ++ (if warnings = 1 then "" else "s") ++ " emitted\n"
  if errors > 0 then
    t.paint .red "error" ++ ": aborting due to "
      ++ (if errors = 1 then "previous error" else toString errors ++ " previous errors")
      ++ (if warnings > 0 then "; " ++ emitted else "\n")
  else if warnings > 0 then t.paint .yellow "warning" ++ ": " ++ emitted
  else ""

end Terminal
end SmallLisp
