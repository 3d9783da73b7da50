import SmallLisp.CommandLine.Options
import SmallLisp.CommandLine.Toolchain
import SmallLisp.Diagnostic.Terminal
import SmallLisp.Problem

/-!
# The command line

A run asks its host for files, settings and tools, and ends in a report: an exit status and what
was written to the two outputs. Everything else is decided here.
-/
namespace SmallLisp

inductive ReadFault where
  | failed (cause : SystemError)
  | notUtf8
deriving DecidableEq

def ReadFault.message (path : String) : ReadFault → String
  | failed .notFound => "cannot find file '" ++ path ++ "'"
  | failed .permissionDenied => "permission denied reading '" ++ path ++ "'"
  | failed cause => "error reading '" ++ path ++ "': " ++ cause.text
  | notUtf8 => "'" ++ path ++ "' contains invalid UTF-8 data"

structure ToolResult where
  status : ExitStatus
  stderr : String := ""

/-- What a run may ask of the system it runs on. -/
structure Host (m : Type → Type) where
  readBytes : String → m (Except SystemError ByteArray)
  /-- Writes a text to a path, in place of what was there. -/
  writeText : (path text : String) → m (Except SystemError Unit)
  setting? : String → m (Option String)
  /-- Runs a program to its end. -/
  runTool : ToolCommand → m (Except SystemError ToolResult)
  errorsToTerminal : m Bool
  /-- How compiled programs call the system. -/
  abi : IR.Abi := .host

structure Report where
  status : Nat := 0
  stdout : String := ""
  stderr : String := ""

def Report.failure (message : String) : Report := { status := 1, stderr := "error: " ++ message ++ "\n" }

def versionText : String := "lispc 0.1.0\n"

def usageText : String := String.join <| List.map (· ++ "\n") [
  "lispc: interpreter and native compiler for a small Lisp",
  "",
  "Usage: lispc [interpret|compile] <file> [options]",
  "",
  "Commands:",
  "  interpret <file>    Evaluate the program and print the result",
  "  compile <file>      Compile to a native executable (default)",
  "  help                Show this help message",
  "  version             Show version information",
  "",
  "Compile options:",
  "  --emit=llvm-ir      Print LLVM IR instead of building",
  "  -o <path>           Output file path",
  "",
  "Environment:",
  "  LISPC_LLC           IR compiler to run (default: llc)",
  "                      Needs LLVM 15 or newer; for LLVM 14 use",
  "                      LISPC_LLC=\"llc -opaque-pointers\"",
  "  LISPC_CC            Assembler/linker driver (default: cc)",
  "  RUST_LOG            Enable tracing output, e.g. lisp_ssa=debug",
  "",
  "Examples:",
  "  lispc interpret fib.lisp",
  "  lispc fib.lisp -o fib",
  "  lispc compile fib.lisp --emit=llvm-ir"]

inductive Command where
  | usage
  | version
  | interpret (path : String)
  | compile (path : String) (options : List String)
  | unknown (option : String)
deriving DecidableEq

/-- The first argument decides; one that is no command and no option is the path of a source. -/
def Command.ofArgs : List String → Command
  | [] | ["interpret"] | ["compile"] => usage
  | "interpret" :: path :: _ => interpret path
  | "compile" :: path :: options => compile path options
  | first :: rest =>
    if first ∈ ["help", "--help", "-h"] then usage
    else if first ∈ ["version", "--version", "-V"] then version
    else if first.toList.head? = some '-' then unknown first
    else compile first rest

namespace Host
variable {m : Type → Type} [Monad m]

def problem (host : Host m) (path source : String) (p : Problem) : m Report := do
  let terminal : Terminal :=
    { colors := ColorMode.auto.enabled (← host.errorsToTerminal), source := some (.ofText path source) }
  return { status := 1, stderr := terminal.render p.diagnostic ++ terminal.summary 1 0 }

def runSetting (host : Host m) (setting variableName : String) (command : ToolCommand) :
    ExceptT BuildFault m Unit := do
  match ← host.runTool command with
  | .error .notFound => throw (.toolNotFound setting variableName .notFound)
  | .error cause => throw (.cannotRun setting cause)
  | .ok result =>
    if result.status = .code 0 then return
    else throw (.toolFailed setting result.status command.text result.stderr)

def toolchain (host : Host m) : m Toolchain := do
  let default : Toolchain := {}
  return { llc := (← host.setting? "LISPC_LLC").getD default.llc,
           cc := (← host.setting? "LISPC_CC").getD default.cc }

/-- Makes an executable from a module's text, which is written beside it. -/
def build (host : Host m) (tools : Toolchain) (text output : String) : ExceptT BuildFault m Unit := do
  let ir := Toolchain.irPath output
  let asm := Toolchain.asmPath output
  match ← host.writeText ir text with
  | .error cause => throw (.cannotWrite ir cause)
  | .ok () =>
    host.runSetting tools.llc "LISPC_LLC" (tools.llcCommand ir asm)
    host.runSetting tools.cc "LISPC_CC" (tools.ccCommand asm output)

def readSource (host : Host m) (path : String) : m (Except ReadFault String) :=
  return match ← host.readBytes path with
    | .error cause => .error (.failed cause)
    | .ok bytes =>
      match String.fromUTF8? bytes with
      | some text => .ok text
      | none => .error .notUtf8

def withSource (host : Host m) (path : String) (next : String → m Report) : m Report := do
  match ← host.readSource path with
  | .error fault => return .failure (fault.message path)
  | .ok source => next source

def interpret (host : Host m) (depth : Nat) (path : String) : m Report :=
  host.withSource path fun source =>
    match interpretSource depth source with
    | none => return .failure "evaluation is nested too deeply"
    | some (.error p) => host.problem path source p
    | some (.ok value) => return { stdout := toString value ++ "\n" }

def compile (host : Host m) (path : String) (options : CompileOptions) : m Report :=
  host.withSource path fun source =>
    match compileSource source (moduleName path) host.abi with
    | .error p => host.problem path source p
    | .ok module => do
      match options.artifact, options.output with
      | .llvmIr, none => return { stdout := module.text }
      | .llvmIr, some output =>
        match ← host.writeText output module.text with
        | .error cause => return .failure (BuildFault.cannotWrite output cause).message
        | .ok () => return {}
      | .executable, output =>
        match ← (host.build (← host.toolchain) module.text (output.getD (defaultOutput path))).run with
        | .error fault => return .failure fault.message
        | .ok () => return {}

def run (host : Host m) (depth : Nat) (args : List String) : m Report :=
  match Command.ofArgs args with
  | .usage => return { stdout := usageText }
  | .version => return { stdout := versionText }
  | .unknown option =>
    return { status := 1, stdout := usageText, stderr := "Unknown option: " ++ option ++ "\n\n" }
  | .interpret path => host.interpret depth path
  | .compile path options =>
    match CompileOptions.read options with
    | .error fault => return .failure fault.message
    | .ok options => host.compile path options

end Host
end SmallLisp
