import SmallLisp.IR.Text

/-!
# Checks on a function

A function is checked block by block in layout order against the registers that the text defines
before, in whatever block it does, and the first defect found is reported.
-/
namespace SmallLisp.IR

inductive Defect where
  | useBeforeDef (r : Reg)
  | duplicateDefinition (r : Reg)
  | duplicateLabel (label : String)
  | unknownBlock (id : BlockId)
  | unknownArgument (param : String)
  /-- A phi names a block that does not branch to the phi's block. -/
  | phiNotPredecessor (block incoming : String)
  | phiNotAtBlockStart (block : String)
deriving DecidableEq

def Defect.message : Defect → String
  | useBeforeDef r => r.text ++ " is used before it is defined"
  | duplicateDefinition r => r.text ++ " is defined more than once"
  | duplicateLabel label => "label `" ++ label ++ "` appears more than once"
  | unknownBlock id => "reference to a block that does not exist (" ++ id.text ++ ")"
  | unknownArgument param => "`" ++ param ++ "` is not a parameter"
  | phiNotPredecessor block incoming =>
    "phi in `" ++ block ++ "` names `" ++ incoming ++ "`, which does not branch there"
  | phiNotAtBlockStart block => "phi in `" ++ block ++ "` follows a non-phi instruction"

structure VerifyError where
  function : String
  defect : Defect
deriving DecidableEq

def VerifyError.message (e : VerifyError) : String :=
  "in `" ++ e.function ++ "`: " ++ e.defect.message

namespace Function

/-- No two blocks have the same label; `seen` are the labels of the blocks before. -/
def checkLabels (seen : List String) : List Block → Except Defect Unit
  | [] => .ok ()
  | b :: bs => if b.label ∈ seen then .error (.duplicateLabel b.label) else checkLabels (b.label :: seen) bs

def checkTargets (f : Function) (ids : List BlockId) : Except Defect Unit :=
  ids.forM fun id => if (f.block? id).isSome then .ok () else .error (.unknownBlock id)

def checkIncoming (f : Function) (b : Block) (ids : List BlockId) : Except Defect Unit :=
  ids.forM fun id =>
    match f.block? id with
    | none => .error (.unknownBlock id)
    | some source =>
      if f.hasEdge id b.id then .ok () else .error (.phiNotPredecessor b.label source.label)

def checkArguments (f : Function) (operands : List Operand) : Except Defect Unit :=
  operands.forM fun
    | .arg param => if param ∈ f.params then .ok () else .error (.unknownArgument param)
    | _ => .ok ()

end Function

def checkUses (defined uses : List Reg) : Except Defect Unit :=
  uses.forM fun r => if r ∈ defined then .ok () else .error (.useBeforeDef r)

/-- The registers defined after an instruction, which must define a new one if any. -/
def checkResult (defined : List Reg) : Option Reg → Except Defect (List Reg)
  | none => .ok defined
  | some r => if r ∈ defined then .error (.duplicateDefinition r) else .ok (r :: defined)

namespace Function

/-- A phi may only follow phis; `late` says that another instruction came before. -/
def checkPhi (f : Function) (b : Block) (late : Bool) : Instr → Except Defect Unit
  | .phi _ incoming =>
    if late then .error (.phiNotAtBlockStart b.label) else f.checkIncoming b (incoming.map (·.2))
  | _ => .ok ()

def checkInstrs (f : Function) (b : Block) : Bool → List Reg → List Instr → Except Defect (List Reg)
  | _, defined, [] => .ok defined
  | late, defined, i :: is => do
    f.checkPhi b late i
    f.checkArguments i.operands
    checkUses defined i.uses
    let defined ← checkResult defined i.dst?
    f.checkInstrs b (late || !i.isPhi) defined is

def checkBlocks (f : Function) : List Reg → List Block → Except Defect Unit
  | _, [] => .ok ()
  | defined, b :: bs => do
    let defined ← f.checkInstrs b false defined b.instrs
    checkUses defined b.terminator.uses
    f.checkBlocks defined bs

/-- The first defect of a function: of its labels, then of its branches, then of its instructions. -/
def check (f : Function) : Except Defect Unit := do
  checkLabels [] f.blocks
  f.checkTargets (f.blocks.flatMap (·.terminator.successors))
  f.checkBlocks [] f.blocks

def verify (f : Function) : Except VerifyError Unit := f.check.mapError (⟨f.name, ·⟩)

end Function

def Module.verify (m : Module) : Except VerifyError Unit := m.functions.forM Function.verify

end SmallLisp.IR
