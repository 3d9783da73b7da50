import SmallLisp.CommandLine.Path

/-!
# Options of a compilation

Options follow the path of the source. Of an option given twice the last counts.
-/
namespace SmallLisp

inductive Artifact where
  | executable | llvmIr
deriving DecidableEq

def Artifact.ofName? : String → Option Artifact
  | "exe" | "executable" => some executable
  | "llvm-ir" => some llvmIr
  | _ => none

structure CompileOptions where
  artifact : Artifact := .executable
  output : Option String := none
deriving DecidableEq

inductive OptionFault where
  | missingPath
  | unknownArtifact (name : String)
  | unexpected (argument : String)
deriving DecidableEq

def OptionFault.message : OptionFault → String
  | missingPath => "'-o' needs a path"
  | unknownArtifact name => "unknown emit type '" ++ name ++ "' (expected llvm-ir or exe)"
  | unexpected argument => "unexpected argument '" ++ argument ++ "'"

namespace CompileOptions

/-- What follows `--emit=` in an argument. -/
def emitted? (argument : String) : Option String :=
  ("--emit=".toList.isPrefixOf? argument.toList).map String.ofList

def readFrom (options : CompileOptions) : List String → Except OptionFault CompileOptions
  | [] => .ok options
  | ["-o"] => .error .missingPath
  | "-o" :: path :: rest => readFrom { options with output := some path } rest
  | argument :: rest =>
    match emitted? argument with
    | none => .error (.unexpected argument)
    | some name =>
      match Artifact.ofName? name with
      | none => .error (.unknownArtifact name)
      | some artifact => readFrom { options with artifact } rest

def read (arguments : List String) : Except OptionFault CompileOptions := readFrom {} arguments

end CompileOptions

/-- Where an executable goes unless another place is named: the source's path without its extension,
or with `.out` added where it has none. -/
def defaultOutput (source : String) : String :=
  (Path.withoutExtension? source).getD (source ++ ".out")

def moduleName (source : String) : String := (Path.stem? source).getD "main"

end SmallLisp
