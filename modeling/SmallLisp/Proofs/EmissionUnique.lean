import SmallLisp.Proofs.EmissionShape
import Mathlib.Data.List.Forall2

/-! # Code is determined by what it is made from

Emission is a relation, but it leaves no choice: the code of a piece depends on the piece, on the next
fresh numbers and on the slots of the scope. Which functions are visible or known decides whether there is
code, not which. So the function made from a definition is determined by the definition alone.
-/
namespace SmallLisp
open IR (Reg)

def SameSlots (σ τ : Scope Storage) : Prop :=
  ∀ x (r : Reg), σ.lookup? x = some (.slot r) ↔ τ.lookup? x = some (.slot r)

namespace SameSlots
variable {σ τ : Scope Storage}

theorem define (h : SameSlots σ τ) (name : String) (storage : Storage) :
    SameSlots (σ.define name storage) (τ.define name storage) := by
  intro x r
  by_cases hx : x = name
  · rw [hx, Scope.lookup?_define_self, Scope.lookup?_define_self]
  · rw [Scope.lookup?_define_ne _ _ hx, Scope.lookup?_define_ne _ _ hx]
    exact h x r

theorem push (h : SameSlots σ τ) : SameSlots σ.push τ.push := by
  intro x r
  rw [Scope.lookup?_push, Scope.lookup?_push]
  exact h x r

theorem parameters (h : SameSlots σ τ) (first : Nat) (xs : List String) :
    SameSlots (parameterScope σ first xs) (parameterScope τ first xs) := by
  induction xs generalizing σ τ first with
  | nil => exact h
  | cons x xs ih => exact ih (h.define x _) (first + 1)

/-- Scopes without slots. -/
theorem of_onlyFunctions {visible visible' : List String} (hσ : OnlyFunctions σ visible)
    (hτ : OnlyFunctions τ visible') : SameSlots σ τ := by
  intro x r
  rw [hσ x, hτ x]
  constructor <;> intro h <;> split at h <;> cases h

end SameSlots

/-- A piece without the registers that only its code decides on. -/
def Piece.source : Piece → Piece
  | .operands es _ => .operands es []
  | piece => piece

section Unique
variable {abi : IR.Abi} {known known' : String → Nat → Prop} {piece piece' : Piece}
  {σ σ' τ τ' : Scope Storage} {p p' q' : Point} {code code' : IR.Code}

/-- The code of a piece and where it leads are determined by the slots of the scope and the point. -/
theorem Emits.unique (h : Emits abi known piece σ p code σ' p') (h' : Emits abi known' piece' τ p code' τ' q')
    (hpiece : piece'.source = piece.source) (hs : SameSlots σ τ) :
    piece' = piece ∧ code' = code ∧ q' = p' ∧ SameSlots σ' τ' := by
  -- A piece leaves one constructor for the second emission, or several of a call, which differ in its head.
  induction h generalizing piece' τ code' τ' q' with
  | int v s r σ p =>
    cases h' <;> cases hpiece
    exact ⟨rfl, rfl, rfl, hs⟩
  | name hx s r p =>
    cases h' <;> cases hpiece
    rename_i hx'
    cases ((hs _ _).mp hx).symm.trans hx'
    exact ⟨rfl, rfl, rfl, hs⟩
  | define d s r σ p =>
    cases h' <;> cases hpiece
    exact ⟨rfl, rfl, rfl, hs.define d.name .function⟩
  | arith hop ht _ ih =>
    cases h' with
    | arith hop' ht' h =>
      cases hpiece
      cases hop.symm.trans hop'
      cases ht.symm.trans ht'
      obtain ⟨-, rfl, rfl, hs⟩ := ih h rfl hs
      exact ⟨rfl, rfl, rfl, hs⟩
    | compare hop' | write hop' | user hop' =>
      cases hpiece
      cases hop.symm.trans hop'
    | _ => cases hpiece
  | compare hop hargs _ ih =>
    cases h' with
    | compare hop' hargs' h =>
      cases hpiece
      cases hop.symm.trans hop'
      cases hargs.symm.trans hargs'
      obtain ⟨-, rfl, rfl, hs⟩ := ih h rfl hs
      exact ⟨rfl, rfl, rfl, hs⟩
    | arith hop' | write hop' | user hop' =>
      cases hpiece
      cases hop.symm.trans hop'
    | _ => cases hpiece
  | write hop hargs _ _ _ ih₁ ih₂ ih₃ =>
    cases h' with
    | write hop' hargs' h₁ h₂ h₃ =>
      cases hpiece
      cases hargs.symm.trans hargs'
      obtain ⟨-, rfl, rfl, hs⟩ := ih₁ h₁ rfl hs
      obtain ⟨-, rfl, rfl, hs⟩ := ih₂ h₂ rfl hs
      obtain ⟨-, rfl, rfl, hs⟩ := ih₃ h₃ rfl hs
      exact ⟨rfl, rfl, rfl, hs⟩
    | arith hop' | compare hop' | user hop' =>
      cases hpiece
      cases hop.symm.trans hop'
    | _ => cases hpiece
  | user hop _ _ _ ih =>
    cases h' with
    | user _ _ _ h =>
      cases hpiece
      obtain ⟨hrs, rfl, rfl, hs⟩ := ih h rfl hs
      cases hrs
      exact ⟨rfl, rfl, rfl, hs⟩
    | arith hop' | compare hop' | write hop' =>
      cases hpiece
      cases hop.symm.trans hop'
    | _ => cases hpiece
  | branch hop hargs _ _ ih₁ ih₂ =>
    cases h' with
    | branch hop' hargs' h₁ h₂ =>
      cases hpiece
      cases hop.symm.trans hop'
      cases hargs.symm.trans hargs'
      obtain ⟨-, rfl, rfl, hs⟩ := ih₁ h₁ rfl hs
      obtain ⟨-, rfl, rfl, hs⟩ := ih₂ h₂ rfl hs
      exact ⟨rfl, rfl, rfl, hs⟩
    | _ => cases hpiece
  | branchElse hop hargs _ _ _ ih₁ ih₂ ih₃ =>
    cases h' with
    | branchElse hop' hargs' h₁ h₂ h₃ =>
      cases hpiece
      cases hop.symm.trans hop'
      cases hargs.symm.trans hargs'
      obtain ⟨-, rfl, rfl, hs⟩ := ih₁ h₁ rfl hs
      obtain ⟨-, rfl, rfl, hs⟩ := ih₂ h₂ rfl hs
      obtain ⟨-, rfl, rfl, hs⟩ := ih₃ h₃ rfl hs
      exact ⟨rfl, rfl, rfl, hs⟩
    | _ => cases hpiece
  | spill _ ih =>
    cases h' with
    | spill h =>
      cases hpiece
      obtain ⟨-, rfl, rfl, hs⟩ := ih h rfl hs
      exact ⟨rfl, rfl, rfl, hs⟩
    | _ => cases hpiece
  | leaf _ ih =>
    cases h' with
    | leaf h =>
      cases hpiece
      obtain ⟨-, rfl, rfl, hs⟩ := ih h rfl hs
      exact ⟨rfl, rfl, rfl, hs⟩
    | _ => cases hpiece
  | node _ _ ih₁ ih₂ =>
    cases h' with
    | node h₁ h₂ =>
      cases hpiece
      obtain ⟨-, rfl, rfl, hs⟩ := ih₁ h₁ rfl hs
      obtain ⟨-, rfl, rfl, hs⟩ := ih₂ h₂ rfl hs
      exact ⟨rfl, rfl, rfl, hs⟩
    | _ => cases hpiece
  | test _ _ ih₁ ih₂ =>
    cases h' with
    | test h₁ h₂ =>
      cases hpiece
      obtain ⟨-, rfl, rfl, hs⟩ := ih₁ h₁ rfl hs
      obtain ⟨-, rfl, rfl, hs⟩ := ih₂ h₂ rfl hs
      exact ⟨rfl, rfl, rfl, hs⟩
    | _ => cases hpiece
  | noOperands σ p =>
    cases h' <;> cases hpiece
    exact ⟨rfl, rfl, rfl, hs⟩
  | operand _ _ ih₁ ih₂ =>
    cases h' with
    | operand h₁ h₂ =>
      cases hpiece
      obtain ⟨-, rfl, rfl, hs⟩ := ih₁ h₁ rfl hs
      obtain ⟨hrs, rfl, rfl, hs⟩ := ih₂ h₂ rfl hs
      cases hrs
      exact ⟨rfl, rfl, rfl, hs⟩
    | _ => cases hpiece
  | result h ih =>
    cases h' with
    | result h =>
      cases hpiece
      obtain ⟨-, rfl, rfl, hs⟩ := ih h rfl hs
      exact ⟨rfl, rfl, rfl, hs⟩
    | more hes =>
      cases hpiece
      exact absurd rfl hes
    | _ => cases hpiece
  | more hes _ _ ih₁ ih₂ =>
    cases h' with
    | more _ h₁ h₂ =>
      cases hpiece
      obtain ⟨-, rfl, rfl, hs⟩ := ih₁ h₁ rfl hs
      obtain ⟨-, rfl, rfl, hs⟩ := ih₂ h₂ rfl hs
      exact ⟨rfl, rfl, rfl, hs⟩
    | result =>
      cases hpiece
      exact absurd rfl hes
    | _ => cases hpiece

/-- The function of a definition does not depend on what its body can see, or on what may be called. -/
theorem Compiled.unique {d : Definition} {visible visible' : List String} {f f' : IR.Function}
    (h : Compiled abi known ⟨d, visible⟩ f) (h' : Compiled abi known' ⟨d, visible'⟩ f') : f' = f := by
  obtain ⟨root, code, σ, p, hroot, hem, hblocks⟩ := h.body
  obtain ⟨root', code', σ', p', hroot', hem', hblocks'⟩ := h'.body
  have hslots := (SameSlots.of_onlyFunctions hroot hroot').push.parameters 1 d.params
  obtain ⟨-, rfl, -, -⟩ := hem.unique hem' rfl hslots
  cases f
  cases f'
  cases h.name.trans h'.name.symm
  cases h.params.trans h'.params.symm
  cases hblocks.trans hblocks'.symm
  rfl

theorem compiled_unique_each {sites sites' : List Site} {fs fs' : List IR.Function}
    (hsites : sites'.map (·.definition) = sites.map (·.definition))
    (h : List.Forall₂ (Compiled abi known) sites fs) (h' : List.Forall₂ (Compiled abi known') sites' fs') :
    fs' = fs := by
  induction h generalizing sites' fs' with
  | nil =>
    rw [List.map_nil, List.map_eq_nil_iff] at hsites
    subst hsites
    cases h'
    rfl
  | @cons site f _ _ hf _ ih =>
    cases h' with
    | nil => cases hsites
    | @cons site' f' _ _ hf' hrest =>
      obtain ⟨hd, hsites⟩ := List.cons.inj hsites
      have hf' : Compiled abi known' ⟨site'.definition, site'.visible⟩ f' := hf'
      rw [show site'.definition = site.definition from hd] at hf'
      rw [hf.unique hf', ih hsites hrest]

variable (abi) in
/-- A choice of the functions that each definition becomes, with the definitions in it, whatever is visible
or known. -/
def IsGrouping (group : Definition → List IR.Function) : Prop :=
  ∀ d visible known fs, List.Forall₂ (Compiled abi known) (d.sites visible) fs → fs = group d

variable (abi) in
/-- A definition determines the functions that it and the definitions in it become. -/
theorem exists_isGrouping : ∃ group, IsGrouping abi group := by
  -- the functions of any compilation of the definition, if there is one
  have hone : ∀ d : Definition, ∃ group, ∀ visible known fs,
      List.Forall₂ (Compiled abi known) (d.sites visible) fs → fs = group := by
    intro d
    by_cases h : ∃ visible known fs, List.Forall₂ (Compiled abi known) (d.sites visible) fs
    · obtain ⟨visible, known, fs, hfs⟩ := h
      exact ⟨fs, fun visible' _ _ hfs' => compiled_unique_each (d.map_definition_sites visible' visible) hfs hfs'⟩
    · exact ⟨[], fun visible known fs hfs => absurd ⟨visible, known, fs, hfs⟩ h⟩
  exact ⟨fun d => (hone d).choose, fun d => (hone d).choose_spec⟩

end Unique
end SmallLisp
