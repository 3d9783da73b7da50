import SmallLisp.IR.Basic

/-! # Blocks as one line of code

The blocks of a function in layout order are read as one list of items: instructions, and terminators
together with the block that is laid out after them. Cutting a function into parts is then cutting a
list, wherever control flow of one part moves to other blocks.
-/
namespace SmallLisp.IR

inductive Item where
  | instr (i : Instr)
  /-- The end of a block and the head of the next one in the layout. -/
  | next (t : Terminator) (id : BlockId) (label : String)

namespace Item

def id? : Item → Option BlockId
  | instr _ => none
  | next _ id _ => some id

def label? : Item → Option String
  | instr _ => none
  | next _ _ label => some label

def dst? : Item → Option Reg
  | instr i => i.dst?
  | next .. => none

end Item

abbrev Code := List Item

namespace Code

def instrs : Code → List Instr
  | [] => []
  | .instr i :: c => i :: instrs c
  | .next .. :: _ => []

def exit (final : Terminator) : Code → Terminator
  | [] => final
  | .instr _ :: c => exit final c
  | .next t _ _ :: _ => t

def later (final : Terminator) : Code → List Block
  | [] => []
  | .instr _ :: c => later final c
  | .next _ id label :: c => ⟨id, label, instrs c, exit final c⟩ :: later final c

def blocks (final : Terminator) (id : BlockId) (label : String) (c : Code) : List Block :=
  ⟨id, label, c.instrs, c.exit final⟩ :: c.later final

def last (id : BlockId) : Code → BlockId
  | [] => id
  | .instr _ :: c => last id c
  | .next _ id _ :: c => last id c

def ids (c : Code) : List BlockId := c.filterMap Item.id?
def labels (c : Code) : List String := c.filterMap Item.label?
def dsts (c : Code) : List Reg := c.filterMap Item.dst?

section Cons
variable (i : Instr) (t : Terminator) (id target : BlockId) (label : String) (c : Code)

@[simp, grind =] theorem ids_nil : ids [] = [] := rfl
@[simp, grind =] theorem ids_instr : ids (.instr i :: c) = ids c := rfl
@[simp, grind =] theorem ids_next : ids (.next t id label :: c) = id :: ids c := rfl
@[simp, grind =] theorem labels_nil : labels [] = [] := rfl
@[simp, grind =] theorem labels_instr : labels (.instr i :: c) = labels c := rfl
@[simp, grind =] theorem labels_next : labels (.next t id label :: c) = label :: labels c := rfl
@[simp, grind =] theorem dsts_nil : dsts [] = [] := rfl
@[simp, grind =] theorem dsts_instr : dsts (.instr i :: c) = i.dst?.toList ++ dsts c := by
  cases h : i.dst? <;> simp [dsts, Item.dst?, h]
@[simp, grind =] theorem dsts_next : dsts (.next t id label :: c) = dsts c := rfl
@[simp, grind =] theorem last_nil : last id [] = id := rfl
@[simp, grind =] theorem last_instr : last id (.instr i :: c) = last id c := rfl
@[simp, grind =] theorem last_next : last id (.next t target label :: c) = last target c := rfl

end Cons

@[simp, grind =] theorem ids_append (c d : Code) : ids (c ++ d) = ids c ++ ids d := List.filterMap_append
@[simp, grind =] theorem labels_append (c d : Code) : labels (c ++ d) = labels c ++ labels d :=
  List.filterMap_append
@[simp, grind =] theorem dsts_append (c d : Code) : dsts (c ++ d) = dsts c ++ dsts d := List.filterMap_append

@[simp, grind =] theorem last_append (id : BlockId) (c d : Code) : last id (c ++ d) = last (last id c) d := by
  induction c generalizing id with
  | nil => rfl
  | cons item c ih => cases item <;> exact ih _

theorem last_mem (id : BlockId) (c : Code) : last id c = id ∨ last id c ∈ ids c := by
  induction c generalizing id with
  | nil => exact .inl rfl
  | cons item c ih =>
    cases item with
    | instr i => exact ih id
    | next t target label =>
      right
      rcases ih target with h | h
      · exact List.mem_cons.mpr (.inl h)
      · exact List.mem_cons_of_mem _ h

variable (final : Terminator)

theorem map_id_later (c : Code) : (later final c).map Block.id = ids c := by
  induction c with
  | nil => rfl
  | cons item c ih =>
    cases item with
    | instr i => exact ih
    | next t id label => exact congrArg (id :: ·) ih

theorem map_id_blocks (id : BlockId) (label : String) (c : Code) :
    (blocks final id label c).map Block.id = id :: ids c := congrArg (id :: ·) (map_id_later final c)

theorem map_label_later (c : Code) : (later final c).map (·.label) = labels c := by
  induction c with
  | nil => rfl
  | cons item c ih =>
    cases item with
    | instr i => exact ih
    | next t id label => exact congrArg (label :: ·) ih

/-- The block that a terminator leads on to starts with the code after it. -/
theorem mem_later (c d : Code) (t : Terminator) (id : BlockId) (label : String) :
    ⟨id, label, d.instrs, d.exit final⟩ ∈ later final (c ++ .next t id label :: d) := by
  induction c with
  | nil => exact List.mem_cons_self
  | cons item c ih =>
    cases item with
    | instr i => exact ih
    | next u other label => exact List.mem_cons_of_mem _ ih

/-- The instructions of blocks are those of the code. -/
theorem mem_of_mem_instrs {c : Code} {i : Instr} (h : i ∈ c.instrs) : .instr i ∈ c := by
  induction c with
  | nil => cases h
  | cons item c ih =>
    cases item with
    | instr j =>
      rcases List.mem_cons.mp h with rfl | h
      · exact List.mem_cons_self
      · exact List.mem_cons_of_mem _ (ih h)
    | next t id label => cases h

theorem mem_of_mem_later {c : Code} {b : Block} (hb : b ∈ later final c) {i : Instr} (hi : i ∈ b.instrs) :
    .instr i ∈ c := by
  induction c with
  | nil => cases hb
  | cons item c ih =>
    apply List.mem_cons_of_mem
    cases item with
    | instr j => exact ih hb
    | next t id label =>
      rcases List.mem_cons.mp hb with rfl | hb
      · exact mem_of_mem_instrs hi
      · exact ih hb

theorem mem_of_mem_blocks {c : Code} {id : BlockId} {label : String} {b : Block}
    (hb : b ∈ blocks final id label c) {i : Instr} (hi : i ∈ b.instrs) : .instr i ∈ c := by
  rcases List.mem_cons.mp hb with rfl | hb
  · exact mem_of_mem_instrs hi
  · exact mem_of_mem_later final hb hi

/-- A terminator in code ends the block that is open before it. -/
theorem exists_block_ending (id : BlockId) (label : String) (c d : Code) (t : Terminator)
    (target : BlockId) (name : String) :
    ∃ b ∈ blocks final id label (c ++ .next t target name :: d), b.id = last id c ∧ b.terminator = t := by
  induction c generalizing id label with
  | nil => exact ⟨_, List.mem_cons_self, rfl, rfl⟩
  | cons item c ih =>
    cases item with
    | instr i =>
      obtain ⟨b, hb, hid, ht⟩ := ih id label
      rcases List.mem_cons.mp hb with rfl | hb
      · exact ⟨_, List.mem_cons_self, hid, ht⟩
      · exact ⟨b, List.mem_cons_of_mem _ hb, hid, ht⟩
    | next u other n =>
      obtain ⟨b, hb, hid, ht⟩ := ih other n
      exact ⟨b, List.mem_cons_of_mem _ hb, hid, ht⟩

end Code

/-- A function that consists of code, starting in the entry block and ending in `final`. -/
structure Function.Consists (f : Function) (final : Terminator) (c : Code) : Prop where
  blocks : f.blocks = c.blocks final ⟨0⟩ "entry"
  /-- No two blocks have the same identity. -/
  distinct : (⟨0⟩ :: c.ids).Nodup

namespace Function.Consists
variable {f : Function} {final : Terminator}

theorem nodup {c : Code} (h : f.Consists final c) : (f.blocks.map Block.id).Nodup := by
  rw [h.blocks, Code.map_id_blocks]
  exact h.distinct

/-- The block of the function that starts after a terminator. -/
theorem block? {c d : Code} {t : Terminator} {id : BlockId} {label : String}
    (h : f.Consists final (c ++ .next t id label :: d)) :
    f.block? id = some ⟨id, label, d.instrs, d.exit final⟩ := by
  have hmem : ⟨id, label, d.instrs, d.exit final⟩ ∈ f.blocks := by
    rw [h.blocks]
    exact List.mem_cons_of_mem _ (Code.mem_later final c d t id label)
  unfold Function.block?
  rw [List.find?_eq_some_iff_append]
  obtain ⟨before, after, hsplit⟩ := List.append_of_mem hmem
  refine ⟨by simp, before, after, hsplit, ?_⟩
  intro b hb
  have hn := h.nodup
  rw [hsplit, List.map_append, List.map_cons] at hn
  have hne := (List.nodup_append.mp hn).2.2 b.id (List.mem_map_of_mem hb) id List.mem_cons_self
  simpa using hne

/-- A terminator in the code makes edges from the block that is open before it. -/
theorem hasEdge {c d : Code} {t : Terminator} {id target : BlockId} {label : String}
    (h : f.Consists final (c ++ .next t id label :: d)) (ht : target ∈ t.successors) :
    f.hasEdge (Code.last ⟨0⟩ c) target = true := by
  obtain ⟨b, hb, hid, hterm⟩ := Code.exists_block_ending final ⟨0⟩ "entry" c d t id label
  rw [← h.blocks] at hb
  unfold Function.hasEdge
  rw [List.any_eq_true]
  exact ⟨b, hb, by simp [hid, hterm, ht]⟩

end Function.Consists
end SmallLisp.IR
