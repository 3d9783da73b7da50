import SmallLisp.Syntax.Expr
import SmallLisp.Syntax.Operator

/-!
# Wording of faults in a program's meaning

The interpreter and the compiler find some of the same faults; each has one wording.
-/
namespace SmallLisp

/-- What a program may say, but not in the place where it says it. -/
inductive Feature where
  | references | systemCalls | topLevelExpressions
deriving DecidableEq

def Feature.text : Feature → String
  | references => "references"
  | systemCalls => "raw system calls"
  | topLevelExpressions => "top-level expressions outside a function"

namespace Wording

def unboundName (name : String) : String := "unbound name `" ++ name ++ "`"

def wrongArity (head : String) (expected : Arity) (found : Nat) : String :=
  "`" ++ head ++ "` takes " ++ expected.text ++ ", found " ++ toString found

def typeMismatch (expected found : Category) : String :=
  "type mismatch: expected " ++ expected.text ++ ", found " ++ found.text

def unsupported (feature : Feature) : String := "unsupported operation: " ++ feature.text

end Wording
end SmallLisp
