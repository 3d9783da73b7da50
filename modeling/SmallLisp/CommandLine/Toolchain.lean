import SmallLisp.CommandLine.SystemError
import SmallLisp.Text.Blank

/-!
# The external tools

An executable is made in two steps: one tool turns the module's text into assembly and another
assembles and links it. A tool's setting may carry arguments of its own after its name.
-/
namespace SmallLisp

structure ToolCommand where
  program : String
  args : List String
deriving DecidableEq

namespace ToolCommand

def words (c : ToolCommand) : List String := c.program :: c.args

/-- Whether a word holds the character NUL. It ends a word for the system, so that no program can be
given such a word. -/
def holdsNul (word : String) : Bool := word.toList.contains '\x00'

/-- The words as they are shown: a stand-in takes the place of each that holds a NUL. -/
def shown (c : ToolCommand) : List String :=
  c.words.map fun word => if holdsNul word then "<string-with-nul>" else word

def text (c : ToolCommand) : String := String.intercalate " " c.shown

/-- The command of a tool: the setting's first word is the program, its other words come before the
given arguments. A setting without words is taken as a program as it is. -/
def ofSetting (setting : String) (args : List String) : ToolCommand :=
  match SmallLisp.words setting with
  | [] => ⟨setting, args⟩
  | program :: own => ⟨program, own ++ args⟩

/-- Words without a NUL are shown as they are. -/
theorem shown_eq_words {c : ToolCommand} (h : ∀ word ∈ c.words, holdsNul word = false) :
    c.shown = c.words := by
  rw [shown, List.map_congr_left (g := id) fun word hw => by simp [h word hw], List.map_id]

example : (ofSetting "llc -a\x00b -c" ["p.ll"]).shown = ["llc", "<string-with-nul>", "-c", "p.ll"] := by
  decide

end ToolCommand

structure Toolchain where
  llc : String := "llc"
  cc : String := "cc"
deriving DecidableEq

namespace Toolchain

def irPath (output : String) : String := output ++ ".ll"

def asmPath (output : String) : String := output ++ ".s"

def llcCommand (t : Toolchain) (ir asm : String) : ToolCommand := .ofSetting t.llc ["-o", asm, ir]

def ccCommand (t : Toolchain) (asm output : String) : ToolCommand := .ofSetting t.cc ["-o", output, asm]

end Toolchain

inductive ExitStatus where
  | code (n : Nat)
  | signal
deriving DecidableEq

def ExitStatus.text : ExitStatus → String
  | code n => "exit code " ++ toString n
  | signal => "terminated by signal"

inductive BuildFault where
  | cannotWrite (path : String) (cause : SystemError)
  | toolNotFound (tool variableName : String) (cause : SystemError)
  | cannotRun (tool : String) (cause : SystemError)
  | toolFailed (tool : String) (status : ExitStatus) (command stderr : String)
deriving DecidableEq

def BuildFault.message : BuildFault → String
  | cannotWrite path cause => "cannot write '" ++ path ++ "': " ++ cause.text
  | toolNotFound tool variableName cause =>
    "'" ++ tool ++ "' not found (set " ++ variableName ++ " to override): " ++ cause.text
  | cannotRun tool cause => "cannot run '" ++ tool ++ "': " ++ cause.text
  | toolFailed tool status command stderr =>
    "'" ++ tool ++ "' failed (" ++ status.text ++ ")\n\ncommand: " ++ command ++ "\n" ++ stderr

end SmallLisp
