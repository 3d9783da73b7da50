import SmallLisp.IR.Builder
import SmallLisp.IR.Syscall

/-! # Code for other systems

Only one instruction depends on the system that a module is made for, the one that enters the kernel. Building a
function commutes with putting another system's instruction in its place.
-/
namespace SmallLisp.IR

def Instr.retarget (abi : Abi) : Instr → Instr
  | .asm dst _ _ args => .asm dst abi.template abi.constraints (.const abi.writeNumber :: args.tail)
  | i => i

def Block.retarget (abi : Abi) (b : Block) : Block := { b with instrs := b.instrs.map (·.retarget abi) }

def Function.retarget (abi : Abi) (f : Function) : Function := { f with blocks := f.blocks.map (·.retarget abi) }

def Module.retarget (abi : Abi) (m : Module) : Module :=
  { m with functions := m.functions.map (·.retarget abi) }

def OpenBlock.retarget (abi : Abi) (b : OpenBlock) : OpenBlock :=
  { b with instrs := b.instrs.map (·.retarget abi) }

def Builder.retarget (abi : Abi) (b : Builder) : Builder := { b with blocks := b.blocks.map (·.retarget abi) }

namespace Builder
variable (abi : Abi) (b : Builder) (id : BlockId)

theorem block?_retarget : (b.retarget abi).block? id = (b.block? id).map (·.retarget abi) := List.getElem?_map

theorem isTerminated_retarget : (b.retarget abi).isTerminated = b.isTerminated := by
  unfold isTerminated
  rw [block?_retarget]
  change (((b.block? b.current).map _).bind _).isSome = _
  cases b.block? b.current <;> rfl

theorem modifyBlock_retarget {f g : OpenBlock → OpenBlock}
    (h : ∀ block, g (block.retarget abi) = (f block).retarget abi) :
    (b.retarget abi).modifyBlock id g = (b.modifyBlock id f).retarget abi := by
  have hblocks : (b.blocks.map (·.retarget abi)).modify id.index g =
      (b.blocks.modify id.index f).map (·.retarget abi) := by
    refine List.ext_getElem? fun n => ?_
    rw [List.getElem?_modify, List.getElem?_map, List.getElem?_map, List.getElem?_modify]
    cases b.blocks[n]? with
    | none => rfl
    | some block =>
      by_cases hn : id.index = n
      · simp [hn, h]
      · simp [hn]
  rw [modifyBlock, retarget, hblocks]
  rfl

theorem emit_retarget (i : Instr) :
    (b.retarget abi).emit (i.retarget abi) = (b.emit i).map (·.retarget abi) := by
  unfold emit
  rw [isTerminated_retarget]
  split
  · rfl
  · refine congrArg Except.ok (modifyBlock_retarget abi b b.current fun block => ?_)
    simp only [OpenBlock.retarget, List.map_append, List.map_cons, List.map_nil]

theorem terminate_retarget (t : Terminator) :
    (b.retarget abi).terminate t = (b.terminate t).map (·.retarget abi) := by
  unfold terminate
  rw [isTerminated_retarget]
  split
  · rfl
  · exact congrArg Except.ok (modifyBlock_retarget abi b b.current fun _ => rfl)

theorem position_retarget : (b.retarget abi).position id = (b.position id).map (·.retarget abi) := by
  unfold position
  rw [block?_retarget]
  cases b.block? id with
  | none =>
    change Except.error (Misuse.outOfBounds id (b.blocks.map _).length) = _
    rw [List.length_map]
    rfl
  | some block =>
    change (if block.placed then _ else _) = Except.map _ (if block.placed then _ else _)
    split
    · rfl
    · have hplaced := modifyBlock_retarget abi { b with current := id } id
        (f := ({ · with placed := true })) (g := ({ · with placed := true })) fun _ => rfl
      exact congrArg (fun b' : Builder => Except.ok { b' with layout := b.layout ++ [id] }) hplaced

theorem closeBlock_retarget :
    (b.retarget abi).closeBlock id = (b.closeBlock id).map (List.map (·.retarget abi)) := by
  unfold closeBlock
  rw [block?_retarget]
  cases b.block? id with
  | none => rfl
  | some block =>
    rw [Option.map_some]
    cases h : block.terminator with
    | none => simp only [OpenBlock.retarget, h]; rfl
    | some t => simp only [OpenBlock.retarget, h]; rfl

theorem finish_retarget : (b.retarget abi).finish = b.finish.map (·.retarget abi) := by
  have hplaced : (b.retarget abi).blocks.find? (!·.placed) = (b.blocks.find? (!·.placed)).map (·.retarget abi) := by
    exact List.find?_map
  have hlayout : ∀ ids : List BlockId, ids.mapM (b.retarget abi).closeBlock =
      (ids.mapM b.closeBlock).map (List.map (List.map (·.retarget abi))) := by
    intro ids
    induction ids with
    | nil => rfl
    | cons id ids ih =>
      rw [List.mapM_cons, List.mapM_cons, closeBlock_retarget, ih]
      cases b.closeBlock id with
      | error e => rfl
      | ok bs => cases ids.mapM b.closeBlock <;> rfl
  unfold finish
  rw [hplaced]
  cases b.blocks.find? (!·.placed) with
  | some block => rfl
  | none =>
    change ((b.layout.mapM (b.retarget abi).closeBlock) >>= _) = _
    rw [hlayout]
    cases b.layout.mapM b.closeBlock with
    | error e => rfl
    | ok bs => exact congrArg (fun blocks => Except.ok (Function.mk b.name b.params blocks)) List.map_flatten.symm

end Builder

end SmallLisp.IR
