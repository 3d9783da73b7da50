import SmallLisp.IR.Basic
import SmallLisp.IR.Name

/-!
# The text of a module

A module is printed as a complete LLVM assembly file, line by line. Labels are printed as they are
where a block starts and as names where a branch refers to them.
-/
namespace SmallLisp.IR

def Reg.text (r : Reg) : String := "%sym" ++ toString r.index

/-- A block in messages, as in `BlockId(3)`. -/
def BlockId.text (id : BlockId) : String := "BlockId(" ++ toString id.index ++ ")"

def paramText (param : String) : String := Name.text '%' ("arg." ++ param)

def Operand.text : Operand → String
  | reg r => r.text
  | const v => toString v
  | arg param => paramText param

def BinOp.text : BinOp → String
  | add => "add"
  | sub => "sub"
  | mul => "mul"
  | sdiv => "sdiv"
  | srem => "srem"

def Pred.text : Pred → String
  | slt => "slt"
  | sgt => "sgt"
  | eq => "eq"

def tuple (items : List String) : String := "(" ++ String.intercalate ", " items ++ ")"

def argsText (args : List Operand) : String := tuple (args.map ("i64 " ++ ·.text))

/-- A reference to a block: its label, or its number where the function has no such block. -/
def Function.labelRef (f : Function) (id : BlockId) : String :=
  match f.label? id with
  | some label => Name.text '%' label
  | none => "%bb" ++ toString id.index

def Instr.text (f : Function) : Instr → String
  | binary d op l r => d.text ++ " = " ++ op.text ++ " i64 " ++ l.text ++ ", " ++ r.text
  | icmp d p l r => d.text ++ " = icmp " ++ p.text ++ " i64 " ++ l.text ++ ", " ++ r.text
  | zext d src => d.text ++ " = zext i1 " ++ src.text ++ " to i64"
  | alloca d => d.text ++ " = alloca i64, align 8"
  | store v ptr => "store i64 " ++ v.text ++ ", ptr " ++ ptr.text ++ ", align 8"
  | load d ptr => d.text ++ " = load i64, ptr " ++ ptr.text ++ ", align 8"
  | ptrToInt d ptr => d.text ++ " = ptrtoint ptr " ++ ptr.text ++ " to i64"
  | call d callee args => d.text ++ " = call i64 " ++ Name.text '@' callee ++ argsText args
  | asm d template constraints args =>
    d.text ++ " = call i64 asm sideeffect \"" ++ template ++ "\", \"" ++ constraints ++ "\""
      ++ argsText args
  | phi d incoming =>
    d.text ++ " = phi i64 " ++ String.intercalate ", "
      (incoming.map fun (v, id) => "[ " ++ v.text ++ ", " ++ f.labelRef id ++ " ]")

def Terminator.text (f : Function) : Terminator → String
  | ret v => "ret i64 " ++ v.text
  | br d => "br label " ++ f.labelRef d
  | condBr c yes no =>
    "br i1 " ++ c.text ++ ", label " ++ f.labelRef yes ++ ", label " ++ f.labelRef no

def Block.lines (f : Function) (b : Block) : List String :=
  (b.label ++ ":") :: b.instrs.map ("  " ++ ·.text f) ++ ["  " ++ b.terminator.text f]

def Function.header (f : Function) : String :=
  "define i64 " ++ Name.text '@' f.name ++ tuple (f.params.map ("i64 " ++ paramText ·)) ++ " \x7b"

def Function.lines (f : Function) : List String :=
  f.header :: List.intercalate [""] (f.blocks.map (·.lines f)) ++ ["\x7d"]

def Module.lines (m : Module) : List String :=
  ("; ModuleID = '" ++ m.name ++ "'") :: ("source_filename = " ++ Name.quoted m.name)
    :: m.functions.flatMap ("" :: ·.lines)

def unlines (lines : List String) : String := String.join (lines.map (· ++ "\n"))

def Function.text (f : Function) : String := unlines f.lines

def Module.text (m : Module) : String := unlines m.lines

end SmallLisp.IR
