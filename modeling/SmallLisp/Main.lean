import SmallLisp.CommandLine.Run

/-!
# The program

The command line on the real system. Starting another program is not possible from here, so making
an executable ends at the first tool; its module text is written all the same.
-/
namespace SmallLisp

/-- A failed access to a file. Its number may come negated. -/
def SystemError.ofFailure : IO.Error → SystemError
  | .noFileOrDirectory _ number reason | .permissionDenied _ number reason
  | .inappropriateType _ number reason | .invalidArgument _ number reason
  | .resourceExhausted _ number reason | .alreadyExists _ number reason
  | .noSuchThing _ number reason => ofNumber number.toInt32.toInt.natAbs reason
  | .resourceBusy number reason | .hardwareFault number reason | .illegalOperation number reason
  | .unsupportedOperation number reason | .unsatisfiedConstraints number reason
  | .otherError number reason => ofNumber number.toInt32.toInt.natAbs reason
  | e => other 5 (toString e)

def attempt {α : Type} (access : IO α) : IO (Except SystemError α) := do
  try return .ok (← access) catch e => return .error (.ofFailure e)

def system : Host IO where
  readBytes path := attempt (IO.FS.readBinFile path)
  writeText path text := attempt (IO.FS.writeFile path text)
  setting? name := IO.getEnv name
  runTool _ := return .error (.other 95 "Operation not supported")
  errorsToTerminal := do (← IO.getStderr).isTty

/-- How deep a program may nest; the memory of the system ends sooner. -/
def nestingLimit : Nat := 1 <<< 62

end SmallLisp

def main (args : List String) : IO UInt32 := do
  let report ← SmallLisp.system.run SmallLisp.nestingLimit args
  (← IO.getStdout).putStr report.stdout
  (← IO.getStderr).putStr report.stderr
  return report.status.toUInt32
