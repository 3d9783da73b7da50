import SmallLisp.IR.Builder
import Mathlib.Data.List.Induction

/-! # Scripts of calls on a builder

A script is any sequence of calls on a builder, in any order. What a script makes is read off the script alone:
which blocks, in which order they are first gone to, and what is done while each of them is the current one.
-/
namespace SmallLisp.IR

inductive BuilderCall where
  | freshReg | freshLabel
  | newBlock (label : String)
  | position (id : BlockId)
  | emit (i : Instr)
  | terminate (t : Terminator)

namespace BuilderCall

def label? : BuilderCall → Option String
  | newBlock label => some label
  | _ => none

def target? : BuilderCall → Option BlockId
  | position id => some id
  | _ => none

def instr? : BuilderCall → Option Instr
  | emit i => some i
  | _ => none

def terminator? : BuilderCall → Option Terminator
  | terminate t => some t
  | _ => none

end BuilderCall

def Builder.perform (b : Builder) : BuilderCall → Except Misuse Builder
  | .freshReg => .ok b.freshReg.2
  | .freshLabel => .ok b.freshLabel.2
  | .newBlock label => .ok (b.newBlock label).2
  | .position id => b.position id
  | .emit i => b.emit i
  | .terminate t => b.terminate t

abbrev Script := List BuilderCall

def Builder.performAll (b : Builder) (s : Script) : Except Misuse Builder := s.foldlM Builder.perform b

namespace Script

/-- The labels of the blocks in the order in which the blocks are made; the entry block is there from the start. -/
def labels (s : Script) : List String := "entry" :: s.filterMap BuilderCall.label?

def visits (s : Script) : List BlockId := ⟨0⟩ :: s.filterMap BuilderCall.target?

def order (s : Script) : List BlockId := s.visits.eraseDups

def endsIn (start : BlockId) (s : Script) : BlockId := s.foldl (fun id c => c.target?.getD id) start

/-- The calls made while a block is the current one, in a script that starts in some block. -/
def callsFrom (start id : BlockId) : Script → List BuilderCall
  | [] => []
  | c :: s => (if start = id then [c] else []) ++ callsFrom (c.target?.getD start) id s

def calls (s : Script) (id : BlockId) : List BuilderCall := callsFrom ⟨0⟩ id s

def instrs (s : Script) (id : BlockId) : List Instr := (s.calls id).filterMap BuilderCall.instr?

def terminators (s : Script) (id : BlockId) : List Terminator := (s.calls id).filterMap BuilderCall.terminator?

def Complete (s : Script) : Prop := ∀ i < s.labels.length, ⟨i⟩ ∈ s.visits ∧ s.terminators ⟨i⟩ ≠ []

instance (s : Script) : Decidable s.Complete :=
  inferInstanceAs (Decidable (∀ i < s.labels.length, ⟨i⟩ ∈ s.visits ∧ s.terminators ⟨i⟩ ≠ []))

/-- The blocks of the function are those that the script makes, with what the script does in them. -/
structure Lists (s : Script) (f : Function) : Prop where
  once : (f.blocks.map Block.id).Perm ((List.range s.labels.length).map BlockId.mk)
  order : f.blocks.map Block.id = s.order
  content : ∀ block ∈ f.blocks, s.labels[block.id.index]? = some block.label ∧
    s.instrs block.id = block.instrs ∧ s.terminators block.id = [block.terminator]
  /-- No call is lost: what a call is made in is one of the blocks. -/
  kept : ∀ id, s.calls id ≠ [] → id ∈ f.blocks.map Block.id

inductive Lacks (s : Script) (function : String) : Unfinished → Prop
  | neverPlaced {i : Nat} {label : String} (hlabel : s.labels[i]? = some label) (hnot : ⟨i⟩ ∉ s.visits)
      (hfirst : ∀ j < i, ⟨j⟩ ∈ s.visits) : Lacks s function (.neverPlaced label function)
  | noTerminator {before after : List BlockId} {id : BlockId} {label : String}
      (hplaced : ∀ i < s.labels.length, ⟨i⟩ ∈ s.visits) (horder : s.order = before ++ id :: after)
      (hlabel : s.labels[id.index]? = some label) (hopen : s.terminators id = [])
      (hfirst : ∀ j ∈ before, s.terminators j ≠ []) : Lacks s function (.noTerminator label function)

/-! ## One more call -/

section
variable (s : Script) (c : BuilderCall) (start id : BlockId)

theorem labels_concat : labels (s ++ [c]) = s.labels ++ c.label?.toList := by
  cases h : c.label? <;> simp [labels, h]

theorem visits_concat : visits (s ++ [c]) = s.visits ++ c.target?.toList := by
  cases h : c.target? <;> simp [visits, h]

theorem endsIn_concat : endsIn start (s ++ [c]) = c.target?.getD (endsIn start s) := by simp [endsIn]

theorem callsFrom_concat :
    callsFrom start id (s ++ [c]) = callsFrom start id s ++ if endsIn start s = id then [c] else [] := by
  induction s generalizing start with
  | nil => exact List.append_nil _
  | cons d s ih =>
    simp only [List.cons_append, callsFrom, ih, List.append_assoc]
    rfl

theorem calls_concat : calls (s ++ [c]) id = s.calls id ++ if endsIn ⟨0⟩ s = id then [c] else [] :=
  callsFrom_concat s c ⟨0⟩ id

theorem instrs_concat :
    instrs (s ++ [c]) id = s.instrs id ++ if endsIn ⟨0⟩ s = id then c.instr?.toList else [] := by
  rw [instrs, calls_concat]
  by_cases h : endsIn ⟨0⟩ s = id
  · cases hc : c.instr? <;> simp [instrs, h, hc]
  · simp [instrs, h]

theorem terminators_concat :
    terminators (s ++ [c]) id = s.terminators id ++ if endsIn ⟨0⟩ s = id then c.terminator?.toList else [] := by
  rw [terminators, calls_concat]
  by_cases h : endsIn ⟨0⟩ s = id
  · cases hc : c.terminator? <;> simp [terminators, h, hc]
  · simp [terminators, h]

end

theorem eraseDups_concat {α : Type} [DecidableEq α] (xs : List α) (x : α) :
    (xs ++ [x]).eraseDups = if x ∈ xs then xs.eraseDups else xs.eraseDups ++ [x] := by
  rw [List.eraseDups_append]
  by_cases h : x ∈ xs <;> simp [List.removeAll, h, List.eraseDups_cons]

theorem nodup_eraseDups {α : Type} [DecidableEq α] (xs : List α) : xs.eraseDups.Nodup := by
  induction xs using List.reverseRecOn with
  | nil => simp
  | append_singleton xs x ih =>
    rw [eraseDups_concat]
    by_cases h : x ∈ xs
    · rwa [if_pos h]
    · rw [if_neg h]
      simpa [List.nodup_append, ih] using fun a ha => ne_of_mem_of_not_mem ha h

theorem order_concat (s : Script) (id : BlockId) :
    order (s ++ [.position id]) = if id ∈ s.visits then s.order else s.order ++ [id] := by
  rw [order, visits_concat]
  exact eraseDups_concat _ _

/-- Nothing is done in a block that the script does not go to. -/
theorem callsFrom_eq_nil {start id : BlockId} {s : Script} (h : id ∉ start :: s.filterMap BuilderCall.target?) :
    callsFrom start id s = [] := by
  induction s generalizing start with
  | nil => rfl
  | cons c s ih =>
    have hstart : start ≠ id := fun he => h (by simp [he])
    rw [callsFrom, if_neg hstart, List.nil_append]
    apply ih
    cases hc : c.target? with
    | none => rwa [List.filterMap_cons_none hc] at h
    | some target =>
      rw [List.filterMap_cons_some hc] at h
      exact fun hm => h (List.mem_cons_of_mem _ hm)

theorem calls_eq_nil {s : Script} {id : BlockId} (h : id ∉ s.visits) : s.calls id = [] := callsFrom_eq_nil h

end Script

end SmallLisp.IR
