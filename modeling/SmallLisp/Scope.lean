/-!
# Scopes

A scope is a stack of frames. Names are defined in the innermost frame; a look-up goes outward
and the first frame that has the name decides. Within a frame the latest definition counts.
-/
namespace SmallLisp

/-- A non-empty stack of frames, the innermost apart. Each frame lists its latest definition first. -/
structure Scope (α : Type) where
  inner : List (String × α) := []
  outer : List (List (String × α)) := []
deriving Inhabited

namespace Scope
variable {α : Type}

def empty : Scope α := {}

def define (s : Scope α) (name : String) (value : α) : Scope α :=
  { s with inner := (name, value) :: s.inner }

/-- What a name means: the latest definition in the innermost frame that has one. -/
def lookup? (s : Scope α) (name : String) : Option α :=
  (s.inner :: s.outer).findSome? (·.lookup name)

def isLocal (s : Scope α) (name : String) : Bool := (s.inner.lookup name).isSome

def depth (s : Scope α) : Nat := s.outer.length + 1

def push (s : Scope α) : Scope α := ⟨[], s.inner :: s.outer⟩

/-- Drops the innermost frame with its names; the last frame stays. -/
def pop (s : Scope α) : Scope α :=
  match s.outer with
  | [] => s
  | frame :: rest => ⟨frame, rest⟩

@[simp] theorem pop_push (s : Scope α) : s.push.pop = s := rfl

/-- Looking up in a frame, or in another table, with one more entry. -/
theorem lookup_cons_eq_ite (x : String) (value : α) (entries : List (String × α)) (name : String) :
    ((x, value) :: entries).lookup name = if x = name then some value else entries.lookup name := by
  by_cases h : x = name
  · simp [h]
  · have hb : (name == x) = false := by simpa using Ne.symm h
    simp [List.lookup_cons, hb, h]

@[simp] theorem lookup?_empty (name : String) : (empty : Scope α).lookup? name = none := rfl

@[simp] theorem lookup?_define_self (s : Scope α) (name : String) (value : α) :
    (s.define name value).lookup? name = some value := by
  simp [lookup?, define]

theorem lookup?_define_ne (s : Scope α) {name other : String} (value : α) (h : other ≠ name) :
    (s.define name value).lookup? other = s.lookup? other := by
  have hb : (other == name) = false := by simpa using h
  simp [lookup?, define, List.findSome?_cons, List.lookup_cons, hb]

@[simp] theorem lookup?_push (s : Scope α) (name : String) : s.push.lookup? name = s.lookup? name := by
  simp [lookup?, push, List.findSome?_cons]

@[simp] theorem depth_push (s : Scope α) : s.push.depth = s.depth + 1 := rfl

@[simp] theorem depth_define (s : Scope α) (name : String) (value : α) :
    (s.define name value).depth = s.depth := rfl

end Scope
end SmallLisp
