import SmallLisp.Eval.Interpreter
import SmallLisp.Proofs.Meaning
import SmallLisp.Proofs.Resolution

/-! # Environments of the interpreter

The interpreter resolves names at run time through its callers, the compiler where they stand. An
environment agrees with a scope of the compiler if variables have their values in it, and if everything
that a body can see is bound. Definitions and calls keep this. What the interpreter finds may differ in
two ways only: a parameter of a caller may hide a function, and a definition in a branch that was not
taken is missing.
-/
namespace SmallLisp

abbrev Frame := List (String × Binding)

def Bound (frames : List Frame) (x : String) : Prop := ∃ frame ∈ frames, ∃ b, (x, b) ∈ frame

namespace Scope

def frames (ρ : Env) : List Frame := ρ.inner :: ρ.outer

def bind (ρ : Env) (bindings : List (String × Int64)) : Env :=
  bindings.foldl (fun ρ b => ρ.define b.1 (.int b.2)) ρ

structure Extends (ρ ρ' : Env) : Prop where
  inner : ρ.inner <:+ ρ'.inner
  outer : ρ'.outer = ρ.outer

namespace Extends
variable {ρ ρ₁ ρ₂ : Env}

theorem refl (ρ : Env) : ρ.Extends ρ := ⟨List.suffix_refl _, rfl⟩

theorem trans (h₁ : ρ.Extends ρ₁) (h₂ : ρ₁.Extends ρ₂) : ρ.Extends ρ₂ :=
  ⟨h₁.inner.trans h₂.inner, h₂.outer.trans h₁.outer⟩

theorem define (ρ : Env) (x : String) (b : Binding) : ρ.Extends (ρ.define x b) :=
  ⟨List.suffix_cons _ _, rfl⟩

/-- What is in a frame stays in one. -/
theorem exists_frame (h : ρ.Extends ρ₁) {x : String} {b : Binding}
    (hb : ∃ frame ∈ ρ.frames, (x, b) ∈ frame) : ∃ frame ∈ ρ₁.frames, (x, b) ∈ frame := by
  obtain ⟨frame, hf, hb⟩ := hb
  rcases List.mem_cons.mp hf with rfl | hf
  · exact ⟨_, List.mem_cons_self, h.inner.mem hb⟩
  · rw [← h.outer] at hf
    exact ⟨frame, List.mem_cons_of_mem _ hf, hb⟩

/-- A frame that was pushed is dropped with everything in it. -/
theorem pop_eq (h : ρ.push.Extends ρ₁) : ρ₁.pop = ρ := by
  rw [pop, h.outer]
  rfl

end Extends

section Lookup
variable {ρ : Env} {x : String}

theorem exists_of_lookup? {b : Binding} (h : ρ.lookup? x = some b) : ∃ frame ∈ ρ.frames, (x, b) ∈ frame := by
  obtain ⟨frame, hf, hl⟩ := List.exists_of_findSome?_eq_some h
  obtain ⟨before, after, he, -⟩ := List.lookup_eq_some_iff.mp hl
  exact ⟨frame, hf, by simp [he]⟩

theorem bound_iff : Bound ρ.frames x ↔ ρ.lookup? x ≠ none := by
  constructor
  · rintro ⟨frame, hf, b, hb⟩ hn
    have hl := List.findSome?_eq_none_iff.mp hn frame hf
    simpa using List.lookup_eq_none_iff.mp hl (x, b) hb
  · intro hn
    obtain ⟨b, hb⟩ := Option.ne_none_iff_exists'.mp hn
    obtain ⟨frame, hf, hm⟩ := exists_of_lookup? hb
    exact ⟨frame, hf, b, hm⟩

end Lookup

/-- A name that was bound stays so. -/
theorem lookup?_define_ne_none {ρ : Env} {x y : String} (b : Binding) (h : x = y ∨ ρ.lookup? x ≠ none) :
    (ρ.define y b).lookup? x ≠ none := by
  by_cases hxy : x = y
  · rw [hxy, lookup?_define_self]
    exact Option.some_ne_none _
  · rw [lookup?_define_ne _ _ hxy]
    exact h.resolve_left hxy

/-- What a name means once integers are bound, each to a name of its own. -/
theorem lookup?_bind (ρ : Env) {bindings : List (String × Int64)} (hn : (bindings.map (·.1)).Nodup) (x : String) :
    (ρ.bind bindings).lookup? x = ((bindings.lookup x).map Binding.int).or (ρ.lookup? x) := by
  induction bindings generalizing ρ with
  | nil => rfl
  | cons b bs ih =>
    obtain ⟨y, v⟩ := b
    rw [List.map_cons, List.nodup_cons] at hn
    change ((ρ.define y (.int v)).bind bs).lookup? x = _
    rw [ih _ hn.2, List.lookup_cons]
    by_cases hxy : x = y
    · subst hxy
      have hnone : bs.lookup x = none := by
        rw [List.lookup_eq_none_iff]
        intro p hp
        have hm : p.1 ∈ bs.map (·.1) := List.mem_map_of_mem hp
        have hne : x ≠ p.1 := by
          rintro rfl
          exact hn.1 hm
        simpa using hne
      simp [hnone]
    · have hb : (x == y) = false := by simpa using hxy
      rw [lookup?_define_ne _ _ hxy, hb]

theorem extends_bind (ρ : Env) (bindings : List (String × Int64)) : ρ.Extends (ρ.bind bindings) := by
  induction bindings generalizing ρ with
  | nil => exact .refl ρ
  | cons b bs ih => exact (Extends.define ρ _ _).trans (ih _)

end Scope

/-! ## Bindings that a program makes -/

/-- What a program may bind to a name where the frames given are in sight: to a parameter an integer, and
to a definition itself, with everything in sight that its body can see. -/
def Fits (program : List Expr) (frames : List Frame) (x : String) : Binding → Prop
  | .int _ => ∃ d ∈ definitions program, x ∈ d.params
  | .function d =>
    d.name = x ∧ ∃ visible, ⟨d, visible⟩ ∈ programSites program ∧ ∀ y ∈ visible, Bound frames y

def FramesFit (program : List Expr) : List Frame → Prop
  | [] => True
  | frame :: rest => (∀ x b, (x, b) ∈ frame → Fits program (frame :: rest) x b) ∧ FramesFit program rest

section Frames
variable {program : List Expr} {frames frames' : List Frame} {x : String} {b : Binding}

theorem Bound.define {ρ : Env} {y : String} (h : Bound ρ.frames y) : Bound (ρ.define x b).frames y := by
  obtain ⟨frame, hf, c, hc⟩ := h
  obtain ⟨frame', hf', hc'⟩ := (Scope.Extends.define ρ x b).exists_frame ⟨frame, hf, hc⟩
  exact ⟨frame', hf', c, hc'⟩

theorem Fits.mono (h : Fits program frames x b) (hsub : ∀ y, Bound frames y → Bound frames' y) :
    Fits program frames' x b := by
  cases b with
  | int v => exact h
  | function d =>
    obtain ⟨hx, visible, hsite, hv⟩ := h
    exact ⟨hx, visible, hsite, fun y hy => hsub y (hv y hy)⟩

/-- Whatever is in a frame fits where all frames are in sight. -/
theorem FramesFit.fits (h : FramesFit program frames) {frame : Frame} (hf : frame ∈ frames)
    (hb : (x, b) ∈ frame) : Fits program frames x b := by
  induction frames with
  | nil => cases hf
  | cons top rest ih =>
    rcases List.mem_cons.mp hf with rfl | hf
    · exact h.1 x b hb
    · refine (ih h.2 hf).mono ?_
      rintro y ⟨frame, hframe, hy⟩
      exact ⟨frame, List.mem_cons_of_mem _ hframe, hy⟩

/-- One more binding in the innermost frame. -/
theorem FramesFit.define {ρ : Env} (h : FramesFit program ρ.frames)
    (hb : Fits program (ρ.define x b).frames x b) : FramesFit program (ρ.define x b).frames := by
  refine ⟨?_, h.2⟩
  intro y c hc
  rcases List.mem_cons.mp hc with hc | hc
  · cases hc
    exact hb
  · exact (h.1 y c hc).mono fun _ => Bound.define

theorem FramesFit.bind {ρ : Env} (h : FramesFit program ρ.frames) {d : Definition} (hd : d ∈ definitions program)
    {bindings : List (String × Int64)} (hb : ∀ b ∈ bindings, b.1 ∈ d.params) :
    FramesFit program (ρ.bind bindings).frames := by
  induction bindings generalizing ρ with
  | nil => exact h
  | cons b bs ih =>
    obtain ⟨hx, hbs⟩ := List.forall_mem_cons.mp hb
    exact ih (h.define ⟨d, hd, hx⟩) hbs

theorem FramesFit.push {ρ : Env} (h : FramesFit program ρ.frames) : FramesFit program ρ.push.frames :=
  ⟨fun _ _ hm => absurd hm List.not_mem_nil, h⟩

end Frames

/-! ## Agreement with a scope of the compiler -/

/-- An environment agrees with the scope at a place in a body that can see the functions `visible`. -/
structure Agrees (program : List Expr) (visible : List String) (vars : String → Option Int64)
    (σ : Scope Storage) (ρ : Env) : Prop where
  frames : FramesFit program ρ.frames
  visible : ∀ x ∈ visible, ρ.lookup? x ≠ none
  slots : ∀ x r, σ.lookup? x = some (.slot r) → ∃ v, ρ.lookup? x = some (.int v) ∧ vars x = some v
  functions : ∀ x, σ.lookup? x = some .function → ρ.lookup? x = none → DefinedInBranch program x

namespace Agrees
variable {program : List Expr} {visible : List String} {vars : String → Option Int64}
  {known : String → Nat → Prop} {σ σ' : Scope Storage} {ρ : Env} {es : List Expr}

/-- A definition is executed. -/
theorem define (h : Agrees program visible vars σ ρ) {b : Bool} {d : Definition}
    (hd : Placed program visible b d) :
    Agrees program visible vars (σ.define d.name .function) (ρ.define d.name (.function d)) where
  frames := by
    refine h.frames.define ⟨rfl, _, hd.site, ?_⟩
    intro y hy
    rw [Scope.bound_iff]
    exact Scope.lookup?_define_ne_none _ ((List.mem_cons.mp hy).imp_right (h.visible y))
  visible x hx := Scope.lookup?_define_ne_none _ (.inr (h.visible x hx))
  slots x r hx := by
    by_cases hn : x = d.name
    · rw [hn, Scope.lookup?_define_self] at hx
      cases hx
    · rw [Scope.lookup?_define_ne _ _ hn] at hx ⊢
      exact h.slots x r hx
  functions x hx hnone := by
    by_cases hn : x = d.name
    · rw [hn, Scope.lookup?_define_self] at hnone
      cases hnone
    · rw [Scope.lookup?_define_ne _ _ hn] at hx hnone
      exact h.functions x hx hnone

/-- A branch is not taken. -/
theorem skip (h : Agrees program visible vars σ ρ)
    (hes : Resolved known (Placed program visible) true σ es σ') : Agrees program visible vars σ' ρ where
  frames := h.frames
  visible := h.visible
  slots x r hx := h.slots x r (hes.slot_of_slot hx)
  functions x hx hnone := by
    rcases hes.function_of_branch hx with hx | ⟨d, hd, rfl⟩
    · exact h.functions x hx hnone
    · exact hd.inBranch rfl

/-- The body of a function that is called. -/
theorem enter (h : FramesFit program ρ.frames) {site : Site} (hsite : site.definition ∈ definitions program)
    (hvisible : ∀ x ∈ site.visible, ρ.lookup? x ≠ none) {root : Scope Storage}
    (hroot : OnlyFunctions root site.visible) (hn : site.definition.params.Nodup) {args : List Int64}
    (hlen : args.length = site.definition.arity) :
    Agrees program site.visible (site.definition.variables args)
      (parameterScope root.push 1 site.definition.params)
      (ρ.push.bind (site.definition.params.zip args)) := by
  have hkeys : (site.definition.params.zip args).map (·.1) = site.definition.params :=
    List.map_fst_zip (Nat.le_of_eq hlen.symm)
  have hnodup : ((site.definition.params.zip args).map (·.1)).Nodup := by rwa [hkeys]
  have hlookup := Scope.lookup?_bind ρ.push hnodup
  have hbound : ∀ x ∈ site.visible, (ρ.push.bind (site.definition.params.zip args)).lookup? x ≠ none := by
    intro x hx hnone
    rw [hlookup, Option.or_eq_none_iff, Scope.lookup?_push] at hnone
    exact hvisible x hx hnone.2
  refine ⟨h.push.bind hsite ?_, hbound, ?_, ?_⟩
  · intro b hb
    rw [← hkeys]
    exact List.mem_map_of_mem hb
  · intro x r hx
    rcases lookup?_parameterScope 1 site.definition.params root.push x with ⟨hmem, -⟩ | ⟨he, -⟩
    · obtain ⟨v, hv⟩ := exists_lookup_zip hlen hmem
      refine ⟨v, ?_, hv⟩
      rw [hlookup, hv]
      rfl
    · rw [he] at hx
      exact absurd hx (hroot.push.no_slot x r)
  · intro x hx hnone
    rcases lookup?_parameterScope 1 site.definition.params root.push x with ⟨-, r, hr, -⟩ | ⟨he, -⟩
    · rw [hr] at hx
      cases hx
    · rw [he, hroot.push x] at hx
      have hmem : x ∈ site.visible := by
        by_contra hm
        rw [if_neg hm] at hx
        cases hx
      exact absurd hnone (hbound x hmem)

section Calls
variable {abi : IR.Abi} {m : IR.Module} {x : String} {d : Definition}

/-- A function that is bound is a definition of the program. -/
theorem definition (hm : CompiledProgram abi program m) (h : Agrees program visible vars σ ρ)
    (hx : ∃ frame ∈ ρ.frames, (x, .function d) ∈ frame) : d ∈ definitions program ∧ d.name = x := by
  obtain ⟨frame, hframe, hmem⟩ := hx
  obtain ⟨hname, visible', hsite, -⟩ := h.frames.fits hframe hmem
  refine ⟨?_, hname⟩
  rw [definitions_eq_programSites hm.forms]
  exact List.mem_map_of_mem hsite

/-- A function that is bound can be called: its body is resolved, and the environment of the call agrees
with the scope of the body. -/
theorem call (hm : CompiledProgram abi program m) (hparams : ∀ d ∈ definitions program, d.params.Nodup)
    (h : Agrees program visible vars σ ρ) (hx : ∃ frame ∈ ρ.frames, (x, .function d) ∈ frame)
    {args : List Int64} (hlen : args.length = d.arity) : d.body ≠ [] ∧ ∃ visible' σ₁ σ₂,
      Resolved (Defines program) (Placed program visible') false σ₁ d.body σ₂ ∧
      Agrees program visible' (d.variables args) σ₁ (ρ.push.bind (d.params.zip args)) := by
  have hd := (h.definition hm hx).1
  obtain ⟨frame, hframe, hmem⟩ := hx
  obtain ⟨-, visible', hsite, hvisible⟩ := h.frames.fits hframe hmem
  obtain ⟨hne, root, σ₂, hroot, hres⟩ := hm.body_resolved hsite
  refine ⟨hne, visible', _, σ₂, hres, ?_⟩
  exact enter h.frames hd (fun y hy => Scope.bound_iff.mp (hvisible y hy)) hroot (hparams d hd) hlen

end Calls
end Agrees
end SmallLisp
