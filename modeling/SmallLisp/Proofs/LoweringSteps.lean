import SmallLisp.Proofs.BuilderLayout
import SmallLisp.Proofs.Emission
import Mathlib.Data.List.Forall2

/-! # Steps of a compilation

A step either fails with a fault that the program is to blame for, or ends in a state of which a
property holds. The state of a function under compilation is described by its layout and the next
fresh numbers; each primitive step is described once on this view, and none of them misuses the builder.
-/
namespace SmallLisp
open IR (Reg BlockId Operand Instr Item Code Layout)

theorem LowerM.build_run (step : IR.Builder → Except IR.Misuse IR.Builder) (s : LowerState) :
    LowerM.build step s = match step s.builder with
      | .ok b => .ok () { s with builder := b }
      | .error m => .error (.internal (.misuse m)) s := by
  change (match step s.builder with
    | .ok b => set { s with builder := b }
    | .error m => throw (.internal (.misuse m)) : LowerM Unit) s = _
  cases step s.builder <;> rfl

/-- Two steps that succeed together succeed one after the other. -/
theorem exists_of_bind_eq_ok {σ α β : Type} {step : EStateM CompileError σ α}
    {f : α → EStateM CompileError σ β} {s t : σ} {b : β} (h : (step >>= f) s = .ok b t) :
    ∃ a s', step s = .ok a s' ∧ f a s' = .ok b t := by
  change EStateM.bind step f s = _ at h
  unfold EStateM.bind at h
  split at h
  · exact ⟨_, _, ‹_›, h⟩
  · cases h

/-- A step that ends as described unless a fault of a given kind stops it. -/
def Ends (fault : CompileError → Prop) {σ α : Type} (step : EStateM CompileError σ α) (s : σ)
    (post : α → σ → Prop) : Prop :=
  match step s with
  | .ok a t => post a t
  | .error e _ => fault e

namespace Ends
variable {fault : CompileError → Prop} {σ α β : Type} {s : σ}

theorem bind {step : EStateM CompileError σ α} {f : α → EStateM CompileError σ β} {mid : α → σ → Prop}
    {post : β → σ → Prop} (h : Ends fault step s mid) (hf : ∀ a t, mid a t → Ends fault (f a) t post) :
    Ends fault (step >>= f) s post := by
  unfold Ends at h ⊢
  change match EStateM.bind step f s with
    | .ok a t => post a t
    | .error e _ => fault e
  unfold EStateM.bind
  cases hs : step s with
  | ok a t =>
    rw [hs] at h
    exact hf a t h
  | error e t =>
    rw [hs] at h
    exact h

theorem mono {step : EStateM CompileError σ α} {mid post : α → σ → Prop} (h : Ends fault step s mid)
    (hp : ∀ a t, mid a t → post a t) : Ends fault step s post := by
  unfold Ends at h ⊢
  cases hs : step s with
  | ok a t =>
    rw [hs] at h
    exact hp a t h
  | error e t =>
    rw [hs] at h
    exact h

theorem pure {a : α} {post : α → σ → Prop} (h : post a s) :
    Ends fault (Pure.pure a : EStateM CompileError σ α) s post := h

theorem get_bind {f : σ → EStateM CompileError σ β} {post : β → σ → Prop} (h : Ends fault (f s) s post) :
    Ends fault (get >>= f) s post := h

/-- A step of the context leaves the rest of the state as it is. -/
theorem inContext {step : ContextM α} {s : LowerState} {post : α → LowerState → Prop}
    (h : Ends fault step s.context fun a cx => post a { s with context := cx }) :
    Ends fault (LowerM.inContext step) s post := by
  unfold Ends at h ⊢
  rw [LowerM.inContext]
  cases hr : step s.context with
  | ok a cx =>
    rw [hr] at h
    exact h
  | error e cx =>
    rw [hr] at h
    exact h

/-- A body is compiled with a builder of its own, and the function that the builder gives is added. -/
theorem inFunction {name : String} {params : List String} {root : Scope Storage} {body : LowerM Unit} {cx : Context}
    {post : Unit → Context → Prop} (h : Ends fault body ⟨cx, .new name params, root.push⟩ fun _ t =>
      match t.builder.finish with
      | .ok f => post () (t.context.addFunction f)
      | .error cause => fault (.internal (.unfinished cause))) :
    Ends fault (SmallLisp.inFunction name params root body) cx post := by
  unfold Ends at h ⊢
  rw [SmallLisp.inFunction]
  cases hb : body ⟨cx, .new name params, root.push⟩ with
  | error e t =>
    rw [hb] at h
    exact h
  | ok _ t =>
    rw [hb] at h
    dsimp only at h ⊢
    cases hf : t.builder.finish with
    | ok f =>
      rw [hf] at h
      exact h
    | error cause =>
      rw [hf] at h
      exact h

end Ends

/-- Faults of the program. An empty body is one where `hollow` says that there may be such a body; all
other internal faults are bugs of the compiler. -/
def CompileError.BlamesProgram (hollow : Prop) : CompileError → Prop
  | .internal (.emptyBody _) => hollow
  | .internal _ | .malformed _ => False
  | _ => True

def Yields (hollow : Prop) {σ α : Type} (step : EStateM CompileError σ α) (s : σ)
    (post : α → σ → Prop) : Prop :=
  match step s with
  | .ok a t => post a t
  | .error e _ => e.BlamesProgram hollow

namespace Yields
variable {hollow : Prop} {σ α β : Type} {s : σ}

theorem bind {step : EStateM CompileError σ α} {f : α → EStateM CompileError σ β}
    {mid : α → σ → Prop} {post : β → σ → Prop} (h : Yields hollow step s mid)
    (hf : ∀ a t, mid a t → Yields hollow (f a) t post) : Yields hollow (step >>= f) s post :=
  Ends.bind h hf

theorem mono {step : EStateM CompileError σ α} {mid post : α → σ → Prop}
    (h : Yields hollow step s mid) (hp : ∀ a t, mid a t → post a t) : Yields hollow step s post :=
  Ends.mono h hp

theorem pure {a : α} {post : α → σ → Prop} (h : post a s) :
    Yields hollow (Pure.pure a : EStateM CompileError σ α) s post := h

theorem get_bind {f : σ → EStateM CompileError σ β} {post : β → σ → Prop}
    (h : Yields hollow (f s) s post) : Yields hollow (get >>= f) s post := h

theorem fail {e : CompileError} {post : α → σ → Prop} (h : e.BlamesProgram hollow) :
    Yields hollow (throw e : EStateM CompileError σ α) s post := h

theorem fail_bind {e : CompileError} {f : α → EStateM CompileError σ β} {post : β → σ → Prop}
    (h : e.BlamesProgram hollow) : Yields hollow (throw e >>= f) s post := h

theorem of_eq_ok {step : EStateM CompileError σ α} {post : α → σ → Prop} {a : α} {t : σ}
    (h : Yields hollow step s post) (hs : step s = .ok a t) : post a t := by
  unfold Yields at h
  rwa [hs] at h

end Yields

/-! ## The context -/

def Definition.entry (d : Definition) : String × Signature := (d.name, d.signature)

def Context.Agrees (cx : Context) (known : String → Nat → Prop) : Prop :=
  ∀ name sig, (name, sig) ∈ cx.signatures → known name sig.arity

/-- What a step adds to a context: signatures of definitions under new names, and the finished
functions of definitions, in order. -/
structure Context.Grows (cx cx' : Context) (declared : List Definition) (finished : List Site) :
    Prop where
  abi : cx'.abi = cx.abi
  module : cx'.module.name = cx.module.name
  signatures : cx'.signatures.Perm (declared.map Definition.entry ++ cx.signatures)
  distinct : (cx.signatures.map (·.1)).Nodup → (cx'.signatures.map (·.1)).Nodup
  functions : ∃ fs, cx'.module.functions = cx.module.functions ++ fs ∧
    ∀ known, cx'.Agrees known → List.Forall₂ (Compiled cx.abi known) finished fs

namespace Context

theorem mem_of_signature? {cx : Context} {name : String} {sig : Signature}
    (h : cx.signature? name = some sig) : (name, sig) ∈ cx.signatures := by
  obtain ⟨before, after, heq, -⟩ := List.lookup_eq_some_iff.mp h
  rw [heq]
  simp

namespace Grows
variable {cx cx₁ cx₂ : Context} {ds ds₁ : List Definition} {ss ss₁ : List Site}

theorem refl (cx : Context) : cx.Grows cx [] [] where
  abi := rfl
  module := rfl
  signatures := List.Perm.refl _
  distinct := id
  functions := ⟨[], (List.append_nil _).symm, fun _ _ => .nil⟩

theorem agrees (h : cx.Grows cx₁ ds ss) {known : String → Nat → Prop} (hk : cx₁.Agrees known) :
    cx.Agrees known :=
  fun name sig hm => hk name sig (h.signatures.mem_iff.mpr (List.mem_append_right _ hm))

theorem trans (h : cx.Grows cx₁ ds ss) (h₁ : cx₁.Grows cx₂ ds₁ ss₁) :
    cx.Grows cx₂ (ds ++ ds₁) (ss ++ ss₁) where
  abi := h₁.abi.trans h.abi
  module := h₁.module.trans h.module
  signatures := by
    refine h₁.signatures.trans ((h.signatures.append_left _).trans ?_)
    rw [List.map_append, List.append_assoc]
    exact List.perm_append_comm_assoc _ _ _
  distinct := h₁.distinct ∘ h.distinct
  functions := by
    obtain ⟨fs, hfs, hc⟩ := h.functions
    obtain ⟨fs₁, hfs₁, hc₁⟩ := h₁.functions
    refine ⟨fs ++ fs₁, by rw [hfs₁, hfs, List.append_assoc], fun known hk => ?_⟩
    have hc₁ := hc₁ known hk
    rw [h.abi] at hc₁
    exact List.rel_append (hc known (h₁.agrees hk)) hc₁

end Grows
end Context

theorem declare_run (d : Definition) (cx : Context) : declare d cx =
    match cx.register d.signature with
    | (none, cx') => .ok () cx'
    | (some p, cx') => .error (.redefinition d.name d.span p.span) cx' := by
  have hget : (get : ContextM Context) cx = .ok cx cx := rfl
  simp only [declare, bind, EStateM.bind, hget]
  obtain ⟨previous | p, cx'⟩ := cx.register d.signature
  · rfl
  · rfl

/-- A name that is not taken enters the table. -/
theorem declare_yields {hollow : Prop} (d : Definition) (cx : Context) :
    Yields hollow (declare d) cx fun _ cx' => cx.Grows cx' [d] [] := by
  unfold Yields
  rw [declare_run, Context.register]
  cases hs : cx.signature? d.signature.name with
  | some sig => exact trivial
  | none =>
    refine ⟨rfl, rfl, List.Perm.refl _, fun hn => ?_, [], (List.append_nil _).symm, fun _ _ => .nil⟩
    refine List.nodup_cons.mpr ⟨?_, hn⟩
    intro hm
    obtain ⟨entry, hmem, hname⟩ := List.mem_map.mp hm
    have hne := List.lookup_eq_none_iff.mp hs entry hmem
    rw [hname] at hne
    simp at hne

/-! ## The state of a function -/

/-- A state of compilation, with the layout and the fresh numbers that its builder stands for. -/
structure LowerState.At (s : LowerState) (cx : Context) (σ : Scope Storage) (L : Layout)
    (waiting : List (BlockId × String)) (p : Point) : Prop where
  context : s.context = cx
  scope : s.scope = σ
  holds : s.builder.Holds L waiting
  reg : s.builder.nextReg = p.reg
  label : s.builder.nextLabel = p.label
  block : s.builder.blocks.length = p.block
  current : L.id = p.current

section Steps
variable {hollow : Prop} {s : LowerState} {cx : Context} {σ : Scope Storage} {L : Layout}
  {waiting : List (BlockId × String)} {p : Point}

theorem freshReg_yields (h : s.At cx σ L waiting p) :
    Yields hollow LowerM.freshReg s fun r t => r = p.fresh 0 ∧ t.At cx σ L waiting (p.skip 1) :=
  ⟨congrArg Reg.mk h.reg, h.context, h.scope,
    ⟨h.holds.name, h.holds.params, h.holds.current, h.holds.layout,
      h.holds.keeps.block?_iff, h.holds.keeps.distinct⟩,
    congrArg (· + 1) h.reg, h.label, h.block, h.current⟩

theorem freshLabel_yields (h : s.At cx σ L waiting p) :
    Yields hollow LowerM.freshLabel s fun n t =>
      n = p.label ∧ t.At cx σ L waiting { p with label := p.label + 1 } :=
  ⟨h.label, h.context, h.scope,
    ⟨h.holds.name, h.holds.params, h.holds.current, h.holds.layout,
      h.holds.keeps.block?_iff, h.holds.keeps.distinct⟩,
    h.reg, congrArg (· + 1) h.label, h.block, h.current⟩

theorem newBlock_yields (h : s.At cx σ L waiting p) (label : String) :
    Yields hollow (LowerM.newBlock label) s fun id t => id = p.newBlock 0 ∧
      t.At cx σ L (waiting ++ [(p.newBlock 0, label)]) { p with block := p.block + 1 } := by
  have hid : (⟨s.builder.blocks.length⟩ : BlockId) = p.newBlock 0 := congrArg BlockId.mk h.block
  refine ⟨hid, h.context, h.scope, hid ▸ h.holds.newBlock label, h.reg, h.label, ?_, h.current⟩
  simp [h.block]

theorem currentBlock_yields (h : s.At cx σ L waiting p) :
    Yields hollow LowerM.currentBlock s fun id t => id = p.current ∧ t.At cx σ L waiting p :=
  ⟨h.holds.current.trans h.current, h⟩

theorem emit_yields (h : s.At cx σ L waiting p) (i : Instr) :
    Yields hollow (LowerM.emit i) s fun _ t => t.At cx σ (L.append [.instr i]) waiting p := by
  obtain ⟨b, hb, hh, hreg, hlabel, hblock⟩ := h.holds.emit i
  unfold Yields
  rw [LowerM.emit, LowerM.build_run, hb]
  exact ⟨h.context, h.scope, hh, hreg.trans h.reg, hlabel.trans h.label, hblock.trans h.block, h.current⟩

/-- Ending the open block and going on in one that waits. -/
theorem advance_yields {before after : List (BlockId × String)} {id : BlockId} {label : String}
    (h : s.At cx σ L (before ++ (id, label) :: after) p) (t : IR.Terminator) :
    Yields hollow (LowerM.terminate t >>= fun _ => LowerM.position id) s fun _ u =>
      u.At cx σ (L.append [.next t id label]) (before ++ after) (p.goto id) := by
  obtain ⟨b₁, b₂, hb₁, hb₂, hh, hreg, hlabel, hblock⟩ := h.holds.advance t
  unfold Yields
  simp only [LowerM.terminate, LowerM.position, bind, EStateM.bind, LowerM.build_run, hb₁, hb₂]
  exact ⟨h.context, h.scope, hh, hreg.trans h.reg, hlabel.trans h.label, hblock.trans h.block, rfl⟩

/-- The step `advance_yields`, with what follows it. -/
theorem advance_bind {α : Type} {before after : List (BlockId × String)} {id : BlockId} {label : String}
    {f : Unit → LowerM α} {post : α → LowerState → Prop}
    (h : s.At cx σ L (before ++ (id, label) :: after) p) (t : IR.Terminator)
    (hf : ∀ u : LowerState, u.At cx σ (L.append [.next t id label]) (before ++ after) (p.goto id) →
      Yields hollow (f ()) u post) :
    Yields hollow (LowerM.terminate t >>= fun _ => LowerM.position id >>= f) s post := by
  have hb := (advance_yields h t).bind fun _ u hu => hf u hu
  rwa [bind_assoc] at hb

/-- Ending the open block once no other block waits completes the function. -/
theorem terminate_yields (h : s.At cx σ L [] p) (t : IR.Terminator) :
    Yields hollow (LowerM.terminate t) s fun _ u =>
      u.context = cx ∧ u.builder.finish = .ok (L.finish t) := by
  obtain ⟨b, hb, hfin⟩ := h.holds.finish t
  unfold Yields
  rw [LowerM.terminate, LowerM.build_run, hb]
  exact ⟨h.context, hfin⟩

theorem define_yields (h : s.At cx σ L waiting p) (name : String) (storage : Storage) :
    Yields hollow (LowerM.define name storage) s fun _ t =>
      t.At cx (σ.define name storage) L waiting p :=
  ⟨h.context, congrArg (Scope.define · name storage) h.scope, h.holds, h.reg, h.label, h.block,
    h.current⟩

theorem inContext_yields {α : Type} {step : ContextM α} {post : α → Context → Prop}
    (h : s.At cx σ L waiting p) (hs : Yields hollow step cx post) :
    Yields hollow (LowerM.inContext step) s fun a t =>
      ∃ cx', post a cx' ∧ t.At cx' σ L waiting p := by
  rw [← h.context] at hs
  refine Ends.inContext (hs.mono fun a cx' ha => ?_)
  exact ⟨cx', ha, rfl, h.scope, h.holds, h.reg, h.label, h.block, h.current⟩

end Steps
end SmallLisp
