import SmallLisp.Compile.Lower
import SmallLisp.Eval.Interpreter
import SmallLisp.Syntax.Parser

/-!
# From source text to an outcome

A source text is interpreted, or compiled into a verified module; either stops at the first problem.
-/
namespace SmallLisp

inductive Problem where
  | reading (error : ParseError)
  | evaluation (error : EvalError)
  | compilation (error : CompileError)
deriving DecidableEq

def Problem.diagnostic : Problem → Diagnostic
  | reading e => e.diagnostic
  | evaluation e => e.diagnostic
  | compilation e => e.diagnostic

/-- The value of a source text, where evaluation nests no deeper than `depth`. -/
def interpretSource (depth : Nat) (source : String) : Option (Except Problem Int64) :=
  match parse source with
  | .error e => some (.error (.reading e))
  | .ok program => (interpret depth program).map (·.mapError .evaluation)

/-- Compiles a source text for the host. A module that does not verify is a bug of the compiler. -/
def compileSource (source moduleName : String) (host : IR.Abi := .host) : Except Problem IR.Module := do
  let program ← (parse source).mapError .reading
  let module ← (compile host moduleName program).mapError .compilation
  module.verify.mapError (.compilation ∘ .malformed)
  return module

end SmallLisp
