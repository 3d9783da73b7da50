/-!
# Failures of the system

An access to a file or a program fails with a number, which stands for a reason.
-/
namespace SmallLisp

inductive SystemError where
  | notFound
  | permissionDenied
  | notDirectory
  | isDirectory
  | other (number : Nat) (reason : String)
deriving DecidableEq

namespace SystemError

def number : SystemError → Nat
  | notFound => 2
  | permissionDenied => 13
  | notDirectory => 20
  | isDirectory => 21
  | other number _ => number

def reason : SystemError → String
  | notFound => "No such file or directory"
  | permissionDenied => "Permission denied"
  | notDirectory => "Not a directory"
  | isDirectory => "Is a directory"
  | other _ reason => reason

/-- As in `Permission denied (os error 13)`. -/
def text (e : SystemError) : String := e.reason ++ " (os error " ++ toString e.number ++ ")"

/-- The failure with a number, for which the system itself gives a reason. -/
def ofNumber (number : Nat) (reason : String) : SystemError :=
  match number with
  | 2 => notFound
  | 13 => permissionDenied
  | 20 => notDirectory
  | 21 => isDirectory
  | _ => other number reason

end SystemError
end SmallLisp
