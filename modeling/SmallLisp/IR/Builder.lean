import SmallLisp.IR.Text

/-!
# Building a function

A builder collects the blocks of one function. Blocks are made before they are filled, so that
branches can name them, and are laid out in the order in which they are first positioned at.
Instructions and terminators go to the block positioned at last. Using a builder otherwise is a
misuse; a builder is finished once every block is laid out and terminated.

The counters of registers and labels are natural numbers and do not wrap; a function is taken to have
fewer than 2^32 of each.
-/
namespace SmallLisp.IR

structure OpenBlock where
  label : String
  instrs : List Instr := []
  terminator : Option Terminator := none
  /-- Whether the block has its place in the layout. -/
  placed : Bool := false

structure Builder where
  name : String
  params : List String
  /-- All blocks made so far; a block's identity is its position here. -/
  blocks : List OpenBlock
  layout : List BlockId
  current : BlockId
  nextReg : Nat
  nextLabel : Nat

/-- A step that the state of a builder does not allow. -/
inductive Misuse where
  | outOfBounds (id : BlockId) (count : Nat)
  | emitTerminated
  | alreadyTerminated (id : BlockId)
deriving DecidableEq

def Misuse.message : Misuse → String
  | outOfBounds id count => "block " ++ id.text ++ " out of bounds (have " ++ toString count ++ " blocks)"
  | emitTerminated => "emit into terminated block"
  | alreadyTerminated id => "block " ++ id.text ++ " already terminated"

inductive Unfinished where
  | neverPlaced (label function : String)
  | noTerminator (label function : String)
deriving DecidableEq

def Unfinished.message : Unfinished → String
  | neverPlaced label function => "block `" ++ label ++ "` in `" ++ function ++ "` was never placed"
  | noTerminator label function => "block `" ++ label ++ "` in `" ++ function ++ "` has no terminator"

namespace Builder

def new (name : String) (params : List String) : Builder where
  name := name
  params := params
  blocks := [{ label := "entry", placed := true }]
  layout := [⟨0⟩]
  current := ⟨0⟩
  nextReg := 1
  nextLabel := 1

def freshReg (b : Builder) : Reg × Builder := (⟨b.nextReg⟩, { b with nextReg := b.nextReg + 1 })

/-- A number not used before, for the labels of one construct. -/
def freshLabel (b : Builder) : Nat × Builder := (b.nextLabel, { b with nextLabel := b.nextLabel + 1 })

def newBlock (b : Builder) (label : String) : BlockId × Builder :=
  (⟨b.blocks.length⟩, { b with blocks := b.blocks ++ [{ label }] })

def block? (b : Builder) (id : BlockId) : Option OpenBlock := b.blocks[id.index]?

def modifyBlock (b : Builder) (id : BlockId) (f : OpenBlock → OpenBlock) : Builder :=
  { b with blocks := b.blocks.modify id.index f }

/-- Makes a block the current one, and the last of the layout if it has no place yet. -/
def position (b : Builder) (id : BlockId) : Except Misuse Builder :=
  match b.block? id with
  | none => .error (.outOfBounds id b.blocks.length)
  | some block =>
    let b := { b with current := id }
    if block.placed then .ok b
    else .ok { b.modifyBlock id ({ · with placed := true }) with layout := b.layout ++ [id] }

def isTerminated (b : Builder) : Bool := ((b.block? b.current).bind (·.terminator)).isSome

def emit (b : Builder) (i : Instr) : Except Misuse Builder :=
  if b.isTerminated then .error .emitTerminated
  else .ok (b.modifyBlock b.current fun block => { block with instrs := block.instrs ++ [i] })

def terminate (b : Builder) (t : Terminator) : Except Misuse Builder :=
  if b.isTerminated then .error (.alreadyTerminated b.current)
  else .ok (b.modifyBlock b.current ({ · with terminator := some t }))

def closeBlock (b : Builder) (id : BlockId) : Except Unfinished (List Block) :=
  match b.block? id with
  | none => .ok []
  | some block =>
    match block.terminator with
    | none => .error (.noTerminator block.label b.name)
    | some t => .ok [⟨id, block.label, block.instrs, t⟩]

def finish (b : Builder) : Except Unfinished Function :=
  match b.blocks.find? (!·.placed) with
  | some block => .error (.neverPlaced block.label b.name)
  | none => do
    let blocks ← b.layout.mapM b.closeBlock
    return ⟨b.name, b.params, blocks.flatten⟩

end Builder
end SmallLisp.IR
