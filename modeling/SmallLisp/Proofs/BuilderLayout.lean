import SmallLisp.IR.Builder
import SmallLisp.Proofs.LinearCode

/-! # What a builder holds

A builder in use has laid out some closed blocks and one open block, and has made others that wait
for their place. Each step that the compiler takes is described on this view: it never misuses the
builder, and finishing gives exactly the blocks laid out.
-/
namespace SmallLisp.IR

/-- A function up to a place in its open block. -/
structure Layout where
  name : String
  params : List String
  closed : List Block
  id : BlockId
  label : String
  instrs : List Instr

namespace Layout

def start (name : String) (params : List String) : Layout := ⟨name, params, [], ⟨0⟩, "entry", []⟩

def next (L : Layout) (t : Terminator) (id : BlockId) (label : String) : Layout :=
  { L with closed := L.closed ++ [⟨L.id, L.label, L.instrs, t⟩], id, label, instrs := [] }

def add (L : Layout) : Item → Layout
  | .instr i => { L with instrs := L.instrs ++ [i] }
  | .next t id label => L.next t id label

def append (L : Layout) (c : Code) : Layout := c.foldl add L

def finish (L : Layout) (t : Terminator) : Function :=
  ⟨L.name, L.params, L.closed ++ [⟨L.id, L.label, L.instrs, t⟩]⟩

@[simp] theorem append_nil (L : Layout) : L.append [] = L := rfl

theorem append_append (L : Layout) (c d : Code) : (L.append c).append d = L.append (c ++ d) :=
  List.foldl_append.symm

theorem append_finish (L : Layout) (c : Code) (t : Terminator) : (L.append c).finish t =
    ⟨L.name, L.params, L.closed ++ ⟨L.id, L.label, L.instrs ++ c.instrs, c.exit t⟩ :: c.later t⟩ := by
  induction c generalizing L with
  | nil => simp [finish, Code.instrs, Code.exit, Code.later]
  | cons item c ih =>
    cases item with
    | instr i =>
      refine (ih (L.add (.instr i))).trans ?_
      simp [add, Code.instrs, Code.exit, Code.later]
    | next u id label =>
      refine (ih (L.add (.next u id label))).trans ?_
      simp [add, next, Code.instrs, Code.exit, Code.later]

/-- Code appended to the start of a function makes the blocks of that code. -/
theorem start_append_finish (name : String) (params : List String) (c : Code) (t : Terminator) :
    ((start name params).append c).finish t = ⟨name, params, c.blocks t ⟨0⟩ "entry"⟩ := by
  rw [append_finish]
  rfl

end Layout

def Block.entry (b : Block) : BlockId × OpenBlock :=
  (b.id, ⟨b.label, b.instrs, some b.terminator, true⟩)

def waitingEntry (w : BlockId × String) : BlockId × OpenBlock := (w.1, { label := w.2 })

namespace Layout

def openBlock (L : Layout) : OpenBlock := ⟨L.label, L.instrs, none, true⟩

def entries (L : Layout) : List (BlockId × OpenBlock) :=
  L.closed.map Block.entry ++ [(L.id, L.openBlock)]

end Layout

namespace Builder

structure Keeps (b : Builder) (entries : List (BlockId × OpenBlock)) : Prop where
  block?_iff : ∀ id block, b.block? id = some block ↔ (id, block) ∈ entries
  distinct : (entries.map (·.1)).Nodup

theorem block?_modifyBlock (b : Builder) (id other : BlockId) (f : OpenBlock → OpenBlock) :
    (b.modifyBlock id f).block? other =
      if other = id then (b.block? other).map f else b.block? other := by
  rcases id with ⟨i⟩
  rcases other with ⟨j⟩
  by_cases h : j = i
  · subst h
    simp [block?, modifyBlock]
  · have hi : i ≠ j := fun he => h he.symm
    simp [block?, modifyBlock, h, hi]

/-- A new block gets an identity that no block had. -/
theorem ne_of_block?_eq_some {b : Builder} {id : BlockId} {block : OpenBlock} (h : b.block? id = some block) :
    id ≠ ⟨b.blocks.length⟩ := by
  rintro rfl
  simp [block?] at h

theorem block?_newBlock (b : Builder) (label : String) (id : BlockId) :
    (b.newBlock label).2.block? id = if id = ⟨b.blocks.length⟩ then some { label } else b.block? id := by
  obtain ⟨n⟩ := id
  simp only [block?, newBlock, BlockId.mk.injEq, List.getElem?_append]
  rcases Nat.lt_trichotomy n b.blocks.length with hn | rfl | hn
  · simp [hn, Nat.ne_of_lt hn]
  · simp
  · simp [Nat.ne_of_gt hn, Nat.not_lt_of_gt hn, Nat.sub_ne_zero_of_lt hn]

namespace Keeps
variable {b : Builder} {xs ys : List (BlockId × OpenBlock)}

theorem perm (h : b.Keeps xs) (hp : xs.Perm ys) : b.Keeps ys where
  block?_iff id block := (h.block?_iff id block).trans hp.mem_iff
  distinct := (hp.map _).nodup_iff.mp h.distinct

theorem lt_length (h : b.Keeps xs) {id : BlockId} {block : OpenBlock} (hm : (id, block) ∈ xs) :
    id.index < b.blocks.length :=
  (List.getElem?_eq_some_iff.mp ((h.block?_iff id block).mpr hm)).1

/-- Changing one block leaves the others as they are. -/
theorem modify {id : BlockId} {block : OpenBlock} (h : b.Keeps (xs ++ (id, block) :: ys))
    (f : OpenBlock → OpenBlock) : (b.modifyBlock id f).Keeps (xs ++ (id, f block) :: ys) where
  block?_iff other result := by
    have hd := (List.perm_middle.map Prod.fst).nodup_iff.mp h.distinct
    rw [List.map_cons, List.nodup_cons] at hd
    rw [block?_modifyBlock, List.perm_middle.mem_iff, List.mem_cons]
    by_cases hid : other = id
    · subst hid
      have hself : b.block? other = some block := (h.block?_iff other block).mpr (by simp)
      have hnot : (other, result) ∉ xs ++ ys := fun hm => hd.1 (List.mem_map.mpr ⟨_, hm, rfl⟩)
      rw [if_pos rfl, hself, or_iff_left hnot]
      simp [eq_comm]
    · rw [if_neg hid, h.block?_iff, List.perm_middle.mem_iff, List.mem_cons]
      simp [hid]
  distinct := by simpa using h.distinct

theorem newBlock (h : b.Keeps xs) (label : String) :
    (b.newBlock label).2.Keeps (xs ++ [waitingEntry (⟨b.blocks.length⟩, label)]) where
  block?_iff id block := by
    rw [block?_newBlock, List.mem_append, ← h.block?_iff, List.mem_singleton, waitingEntry, Prod.mk.injEq]
    by_cases hid : id = ⟨b.blocks.length⟩
    · have hold : b.block? id ≠ some block := fun hb => ne_of_block?_eq_some hb hid
      rw [if_pos hid, or_iff_right hold]
      simp [hid, eq_comm]
    · simp [hid]
  distinct := by
    rw [List.map_append, List.nodup_append]
    refine ⟨h.distinct, by simp, ?_⟩
    intro id hid other hother
    obtain ⟨⟨_, block⟩, hm, rfl⟩ := List.mem_map.mp hid
    have hother : other = ⟨b.blocks.length⟩ := by simpa [waitingEntry] using hother
    rw [hother]
    rintro rfl
    exact Nat.lt_irrefl _ (h.lt_length hm)

end Keeps

/-- A builder that is at the end of a layout while other blocks wait for their place. -/
structure Holds (b : Builder) (L : Layout) (waiting : List (BlockId × String)) : Prop where
  name : b.name = L.name
  params : b.params = L.params
  current : b.current = L.id
  layout : b.layout = L.entries.map (·.1)
  keeps : b.Keeps (L.entries ++ waiting.map waitingEntry)

theorem holds_new (name : String) (params : List String) :
    (new name params).Holds (.start name params) [] where
  name := rfl
  params := rfl
  current := rfl
  layout := rfl
  keeps :=
    { block?_iff := by
        intro ⟨i⟩ block
        rcases i with _ | i
        · simp [new, block?, Layout.start, Layout.entries, Layout.openBlock, eq_comm]
        · simp [new, block?, Layout.start, Layout.entries]
      distinct := by simp [Layout.start, Layout.entries] }

namespace Holds
variable {b : Builder} {L : Layout} {waiting : List (BlockId × String)}

theorem block?_current (h : b.Holds L waiting) : b.block? b.current = some L.openBlock := by
  rw [h.keeps.block?_iff, h.current]
  simp [Layout.entries]

theorem not_isTerminated (h : b.Holds L waiting) : b.isTerminated = false := by
  simp [isTerminated, h.block?_current, Layout.openBlock]

/-- What changing the open block makes of the blocks. -/
theorem keeps_modify (h : b.Holds L waiting) (f : OpenBlock → OpenBlock) :
    (b.modifyBlock b.current f).Keeps
      (L.closed.map Block.entry ++ (L.id, f L.openBlock) :: waiting.map waitingEntry) := by
  have hk := h.keeps
  rw [Layout.entries, List.append_assoc, List.singleton_append] at hk
  rw [h.current]
  exact hk.modify f

theorem emit (h : b.Holds L waiting) (i : Instr) :
    ∃ b', b.emit i = .ok b' ∧ b'.Holds (L.add (.instr i)) waiting ∧ b'.nextReg = b.nextReg ∧
      b'.nextLabel = b.nextLabel ∧ b'.blocks.length = b.blocks.length := by
  let f : OpenBlock → OpenBlock := fun block => { block with instrs := block.instrs ++ [i] }
  refine ⟨b.modifyBlock b.current f, ?_, ?_, rfl, rfl, by simp [modifyBlock]⟩
  · rw [Builder.emit, if_neg (by simp [h.not_isTerminated])]
  have hk := h.keeps_modify f
  constructor
  · exact h.name
  · exact h.params
  · exact h.current
  · exact h.layout.trans (by simp [Layout.entries, Layout.add])
  · simpa [Layout.entries, Layout.add, Layout.openBlock, f] using hk

theorem newBlock (h : b.Holds L waiting) (label : String) :
    (b.newBlock label).2.Holds L (waiting ++ [(⟨b.blocks.length⟩, label)]) where
  name := h.name
  params := h.params
  current := h.current
  layout := h.layout
  keeps := by simpa using h.keeps.newBlock label

/-- Ending the open block and going on in a waiting one. -/
theorem advance {before after : List (BlockId × String)} {id : BlockId} {label : String}
    (h : b.Holds L (before ++ (id, label) :: after)) (t : Terminator) :
    ∃ b₁ b₂, b.terminate t = .ok b₁ ∧ b₁.position id = .ok b₂ ∧
      b₂.Holds (L.next t id label) (before ++ after) ∧ b₂.nextReg = b.nextReg ∧
      b₂.nextLabel = b.nextLabel ∧ b₂.blocks.length = b.blocks.length := by
  let b₁ := b.modifyBlock b.current ({ · with terminator := some t })
  have hk : b₁.Keeps _ := h.keeps_modify ({ · with terminator := some t })
  rw [List.map_append, List.map_cons, ← List.cons_append, ← List.append_assoc] at hk
  have hwait : b₁.block? id = some { label } := (hk.block?_iff _ _).mpr (by simp [waitingEntry])
  have hk₂ := hk.modify ({ · with placed := true })
  let b₂ := { { b₁ with current := id }.modifyBlock id ({ · with placed := true }) with
    layout := b₁.layout ++ [id] }
  refine ⟨b₁, b₂, ?_, ?_, ?_, rfl, rfl, by simp [b₁, b₂, modifyBlock]⟩
  · rw [terminate, if_neg (by simp [h.not_isTerminated])]
  · simp [position, hwait, b₂]
  constructor
  · exact h.name
  · exact h.params
  · rfl
  · have hl : b₂.layout = b.layout ++ [id] := rfl
    rw [hl, h.layout]
    simp [Layout.entries, Layout.next, Block.entry]
  · have hk₂ : b₂.Keeps _ := ⟨hk₂.block?_iff, hk₂.distinct⟩
    refine hk₂.perm ?_
    simp only [Layout.entries, Layout.next, List.map_append, List.append_assoc, List.cons_append,
      List.map_cons, List.map_nil, List.nil_append]
    exact (List.perm_middle.cons _).append_left _

end Holds

/-- Blocks that are kept closed are finished as they are. -/
theorem Keeps.mapM_closeBlock {b : Builder} {blocks : List Block}
    (h : b.Keeps (blocks.map Block.entry)) :
    (blocks.map Block.id).mapM b.closeBlock = .ok (blocks.map fun block => [block]) := by
  suffices ∀ part ⊆ blocks,
      (part.map Block.id).mapM b.closeBlock = .ok (part.map fun block => [block]) from
    this blocks fun _ hx => hx
  intro part hsub
  induction part with
  | nil => rfl
  | cons block part ih =>
    have hb : b.block? block.id = some block.entry.2 :=
      (h.block?_iff _ _).mpr (List.mem_map_of_mem (hsub List.mem_cons_self))
    have hone : b.closeBlock block.id = .ok [block] := by simp [closeBlock, hb, Block.entry]
    rw [List.map_cons, List.mapM_cons, hone, ih fun x hx => hsub (List.mem_cons_of_mem _ hx)]
    rfl

/-- Once every block has its place and the open one is closed, the function is complete. -/
theorem Holds.finish {b : Builder} {L : Layout} (h : b.Holds L []) (t : Terminator) :
    ∃ b', b.terminate t = .ok b' ∧ b'.finish = .ok (L.finish t) := by
  let b' := b.modifyBlock b.current ({ · with terminator := some t })
  let blocks := L.closed ++ [⟨L.id, L.label, L.instrs, t⟩]
  refine ⟨b', by rw [terminate, if_neg (by simp [h.not_isTerminated])], ?_⟩
  have hk : b'.Keeps (blocks.map Block.entry) := by
    simpa [blocks, Block.entry, Layout.openBlock] using
      h.keeps_modify ({ · with terminator := some t })
  have hplaced : b'.blocks.find? (!·.placed) = none := by
    rw [List.find?_eq_none]
    intro block hm
    obtain ⟨i, hi⟩ := List.mem_iff_getElem?.mp hm
    obtain ⟨closed, _, he⟩ := List.mem_map.mp ((hk.block?_iff ⟨i⟩ block).mp hi)
    obtain rfl : closed.entry.2 = block := congrArg Prod.snd he
    simp [Block.entry]
  have hlayout : b'.layout = blocks.map Block.id :=
    h.layout.trans (by simp [blocks, Layout.entries, Block.entry])
  have hname : b'.name = L.name := h.name
  have hparams : b'.params = L.params := h.params
  have hflat : (blocks.map fun block => [block]).flatten = blocks := by
    rw [← List.flatMap_def, List.flatMap_singleton']
  rw [Builder.finish, hplaced, hlayout, hk.mapM_closeBlock, hname, hparams]
  simp only [bind, Except.bind, pure, Except.pure, hflat]
  rfl

end Builder
end SmallLisp.IR
