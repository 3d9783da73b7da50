import SmallLisp.Proofs.BareTrees
import SmallLisp.Proofs.LoweringSyntax
import SmallLisp.Proofs.Retargeting

/-! # Compilation recast

A program may be laid out differently, so that its spans are others, and it may be compiled for another
system. Neither is looked at during compilation: spans only end up in errors, and the system only in the
instruction that enters the kernel. So every step of a compilation, started in a state that is recast, ends in
the recast of the state and of the error that it ends in otherwise.
-/
namespace SmallLisp
open IR (Reg BlockId Operand Instr)

/-- Looking up in a list of entries that are all changed alike. -/
theorem lookup_map {α β : Type} (f : α → β) (entries : List (String × α)) (name : String) :
    (entries.map fun entry => (entry.1, f entry.2)).lookup name = (entries.lookup name).map f := by
  induction entries with
  | nil => rfl
  | cons entry entries ih =>
    rw [List.map_cons, List.lookup_cons, List.lookup_cons, ih]
    cases name == entry.1 <;> rfl

def CompileError.mapSpans (f : Span → Span) : CompileError → CompileError
  | .unboundName name s => .unboundName name (f s)
  | .undefinedFunction name s => .undefinedFunction name (f s)
  | .wrongArity head expected found s => .wrongArity head expected found (f s)
  | .typeMismatch expected found s => .typeMismatch expected found (f s)
  | .redefinition name s previous => .redefinition name (f s) (f previous)
  | .unsupported feature s => .unsupported feature (f s)
  | .internal fault => .internal fault
  | .malformed e => .malformed e

/-- What the spans of a program become, and the system that it is compiled for instead. -/
structure Recast where
  span : Span → Span
  abi : IR.Abi

namespace Recast
variable (r : Recast)

def signature (s : Signature) : Signature := { s with span := r.span s.span }

def context (cx : Context) : Context where
  abi := r.abi
  module := cx.module.retarget r.abi
  signatures := cx.signatures.map fun entry => (entry.1, r.signature entry.2)

def state (s : LowerState) : LowerState where
  context := r.context s.context
  builder := s.builder.retarget r.abi
  scope := s.scope

section Results
variable {σ α : Type} (φ : σ → σ)

def result : EStateM.Result CompileError σ α → EStateM.Result CompileError σ α
  | .ok a s => .ok a (φ s)
  | .error e s => .error (e.mapSpans r.span) (φ s)

def Mirrors (x y : EStateM CompileError σ α) : Prop := ∀ s, y (φ s) = r.result φ (x s)

end Results

variable {r}

namespace Mirrors
variable {σ α β : Type} {φ : σ → σ}

theorem pure (a : α) : r.Mirrors φ (Pure.pure a) (Pure.pure a) := fun _ => rfl

theorem throw (e : CompileError) :
    r.Mirrors φ (MonadExcept.throw e : EStateM CompileError σ α) (MonadExcept.throw (e.mapSpans r.span)) :=
  fun _ => rfl

theorem bind {x y : EStateM CompileError σ α} {k l : α → EStateM CompileError σ β} (hx : r.Mirrors φ x y)
    (h : ∀ a, r.Mirrors φ (k a) (l a)) : r.Mirrors φ (x >>= k) (y >>= l) := by
  intro s
  change EStateM.bind y l (φ s) = r.result φ (EStateM.bind x k s)
  unfold EStateM.bind
  rw [hx s]
  cases x s with
  | ok a t => exact h a t
  | error e t => rfl

/-- Reading the state reads what it was recast from. -/
theorem get_bind {k l : σ → EStateM CompileError σ α} (h : ∀ s, r.Mirrors φ (k s) (l (φ s))) :
    r.Mirrors φ (get >>= k) (get >>= l) := fun s => h s s

end Mirrors

/-! ## Steps of the context -/

theorem signature?_context (cx : Context) (name : String) :
    (r.context cx).signature? name = (cx.signature? name).map r.signature :=
  lookup_map r.signature cx.signatures name

theorem addFunction_context (cx : Context) (f : IR.Function) :
    (r.context cx).addFunction (f.retarget r.abi) = r.context (cx.addFunction f) := by
  simp only [Context.addFunction, context, IR.Module.retarget, List.map_append, List.map_cons, List.map_nil]

theorem register_context (cx : Context) (s : Signature) :
    (r.context cx).register (r.signature s) = ((cx.register s).1.map r.signature, r.context (cx.register s).2) := by
  unfold Context.register
  rw [signature?_context]
  rfl

theorem declare_mirrors (d : Definition) : r.Mirrors r.context (declare d) (declare (d.mapSpans r.span)) := by
  have hsignature : (d.mapSpans r.span).signature = r.signature d.signature := by
    rw [Definition.mapSpans_eq]
    rfl
  intro cx
  rw [declare_run, declare_run, hsignature, register_context, Definition.mapSpans_eq]
  obtain ⟨previous, cx'⟩ := cx.register d.signature
  cases previous <;> rfl

/-- Definitions at the top are declared alike, with what follows on them. -/
theorem declareFrom_mirrors {α : Type} (es : List Expr) (root : Scope Storage)
    {k l : Scope Storage × List Definition → ContextM α}
    (h : ∀ root ds, r.Mirrors r.context (k (root, ds)) (l (root, ds.map (·.mapSpans r.span)))) :
    r.Mirrors r.context (declareFrom root es >>= k) (declareFrom root (es.map (·.mapSpans r.span)) >>= l) := by
  induction es generalizing root k l with
  | nil => exact h root []
  | cons e es ih =>
    cases e with
    | define d s =>
      rw [List.map_cons, Expr.mapSpans, declareFrom, declareFrom]
      simp only [bind_assoc]
      refine (declare_mirrors d).bind fun _ => ?_
      rw [show (d.mapSpans r.span).name = d.name by rw [Definition.mapSpans_eq]]
      exact ih _ fun root ds => h root (d :: ds)
    | branch t y n s =>
      rw [List.map_cons, Expr.mapSpans_branch]
      exact fun _ => rfl
    | _ =>
      rw [List.map_cons, Expr.mapSpans]
      exact fun _ => rfl

/-! ## Steps in a function -/

theorem freshReg_mirrors : r.Mirrors r.state LowerM.freshReg LowerM.freshReg := fun _ => rfl

theorem freshLabel_mirrors : r.Mirrors r.state LowerM.freshLabel LowerM.freshLabel := fun _ => rfl

theorem newBlock_mirrors (label : String) : r.Mirrors r.state (LowerM.newBlock label) (LowerM.newBlock label) := by
  intro s
  change EStateM.Result.ok _ _ = EStateM.Result.ok _ _
  simp only [state, IR.Builder.retarget, List.length_map, List.map_append, List.map_cons, List.map_nil]
  rfl

theorem currentBlock_mirrors : r.Mirrors r.state LowerM.currentBlock LowerM.currentBlock := fun _ => rfl

theorem define_mirrors (x : String) (storage : Storage) :
    r.Mirrors r.state (LowerM.define x storage) (LowerM.define x storage) := fun _ => rfl

theorem build_mirrors {step step' : IR.Builder → Except IR.Misuse IR.Builder}
    (h : ∀ b, step' (b.retarget r.abi) = (step b).map (·.retarget r.abi)) :
    r.Mirrors r.state (LowerM.build step) (LowerM.build step') := by
  refine .get_bind fun s => ?_
  rw [show (r.state s).builder = s.builder.retarget r.abi from rfl, h]
  cases step s.builder with
  | ok b => exact fun _ => rfl
  | error m => exact fun _ => rfl

theorem emit_mirrors (i : Instr) : r.Mirrors r.state (LowerM.emit i) (LowerM.emit (i.retarget r.abi)) :=
  build_mirrors fun b => b.emit_retarget r.abi i

theorem position_mirrors (id : BlockId) : r.Mirrors r.state (LowerM.position id) (LowerM.position id) :=
  build_mirrors fun b => b.position_retarget r.abi id

theorem terminate_mirrors (t : IR.Terminator) : r.Mirrors r.state (LowerM.terminate t) (LowerM.terminate t) :=
  build_mirrors fun b => b.terminate_retarget r.abi t

theorem inContext_mirrors {α : Type} {x y : ContextM α} (h : r.Mirrors r.context x y) :
    r.Mirrors r.state (LowerM.inContext x) (LowerM.inContext y) := by
  intro s
  unfold LowerM.inContext
  rw [show (r.state s).context = r.context s.context from rfl, h]
  cases x s.context <;> rfl

/-- A function whose body is compiled alike is compiled alike. -/
theorem inFunction_mirrors {body body' : LowerM Unit} (name : String) (params : List String)
    (root : Scope Storage) (h : r.Mirrors r.state body body') :
    r.Mirrors r.context (inFunction name params root body) (inFunction name params root body') := by
  intro cx
  unfold inFunction
  rw [show (⟨r.context cx, .new name params, root.push⟩ : LowerState) =
    r.state ⟨cx, .new name params, root.push⟩ from rfl, h]
  cases body ⟨cx, .new name params, root.push⟩ with
  | error e s => rfl
  | ok _ s =>
    simp only [result, state, IR.Builder.finish_retarget]
    cases s.builder.finish with
    | error cause => rfl
    | ok f => exact congrArg (EStateM.Result.ok ()) (addFunction_context s.context f)

/-! ## Values in registers -/

variable (r) in
def Alike (l l' : Lowering) : Prop := ∀ target, r.Mirrors r.state (l target) (l' target)

theorem throw_alike (e : CompileError) : r.Alike (fun _ => throw e) (fun _ => throw (e.mapSpans r.span)) :=
  fun _ => .throw e

theorem constant_alike (v : Int64) : r.Alike (Lower.constant v) (Lower.constant v) := fun _ => emit_mirrors _

theorem load_alike (x : String) (s : Span) : r.Alike (Lower.load x s) (Lower.load x (r.span s)) := by
  intro target
  refine .get_bind fun t => ?_
  rw [show (r.state t).scope = t.scope from rfl]
  cases t.scope.lookup? x with
  | none => exact .throw _
  | some storage =>
    cases storage with
    | slot ptr => exact emit_mirrors _
    | function => exact .throw _

theorem spill_alike {l l' : Lowering} (h : r.Alike l l') : r.Alike (Lower.spill l) (Lower.spill l') :=
  fun _ => freshReg_mirrors.bind fun v => (h v).bind fun _ => (emit_mirrors _).bind fun _ => emit_mirrors _

theorem parameter_mirrors (x : String) : r.Mirrors r.state (Lower.parameter x) (Lower.parameter x) :=
  freshReg_mirrors.bind fun slot => (emit_mirrors (.alloca slot)).bind fun _ =>
    (emit_mirrors (.store (.arg x) slot)).bind fun _ => define_mirrors x _

section Lists
variable {f g : Expr → Lowering}

theorem tree_alike (t : Split Expr) (h : ∀ e ∈ t.leaves, r.Alike (f e) (g e)) :
    r.Alike (Lower.tree (t.map f)) (Lower.tree (t.map g)) := by
  induction t with
  | leaf e => exact h e List.mem_cons_self
  | node op left right ihl ihr =>
    have hl := ihl fun e he => h e (List.mem_append_left _ he)
    have hr := ihr fun e he => h e (List.mem_append_right _ he)
    intro target
    refine freshReg_mirrors.bind fun lhs => freshReg_mirrors.bind fun rhs => ?_
    exact (hl lhs).bind fun _ => (hr rhs).bind fun _ => emit_mirrors _

theorem arithmetic_alike (op : ArithOp) (head : String) (s : Span) {es : List Expr}
    (h : ∀ e ∈ es, r.Alike (f e) (g e)) :
    r.Alike (Lower.arithmetic op head s (es.map f)) (Lower.arithmetic op head (r.span s) (es.map g)) := by
  unfold Lower.arithmetic
  rw [Split.ofList?_map, Split.ofList?_map]
  cases ht : Split.ofList? op es with
  | none => exact throw_alike _
  | some t => exact tree_alike t fun e he => h e (Split.leaves_of_ofList? ht ▸ he)

theorem comparison_alike (op : CompareOp) (head : String) (s : Span) {es : List Expr}
    (h : ∀ e ∈ es, r.Alike (f e) (g e)) :
    r.Alike (Lower.comparison op head s (es.map f)) (Lower.comparison op head (r.span s) (es.map g)) := by
  by_cases hlen : es.length = 2
  · obtain ⟨x, y, rfl⟩ := List.length_eq_two.mp hlen
    intro target
    refine freshReg_mirrors.bind fun lhs => freshReg_mirrors.bind fun rhs => ?_
    exact (h x (by simp) lhs).bind fun _ => (h y (by simp) rhs).bind fun _ => emit_mirrors _
  · rw [comparison_eq_throw (by simpa using hlen), comparison_eq_throw (by simpa using hlen), List.length_map,
      List.length_map]
    exact throw_alike _

theorem comparisonValue_alike (op : CompareOp) (head : String) (s : Span) {es : List Expr}
    (h : ∀ e ∈ es, r.Alike (f e) (g e)) :
    r.Alike (Lower.comparisonValue op head s (es.map f)) (Lower.comparisonValue op head (r.span s) (es.map g)) :=
  fun _ => freshReg_mirrors.bind fun flag => (comparison_alike op head s h flag).bind fun _ => emit_mirrors _

theorem operands_mirrors {es : List Expr} (h : ∀ e ∈ es, r.Alike (f e) (g e)) :
    r.Mirrors r.state (Lower.operands (es.map f)) (Lower.operands (es.map g)) := by
  induction es with
  | nil => exact .pure []
  | cons e es ih =>
    refine freshReg_mirrors.bind fun v => (h e List.mem_cons_self v).bind fun _ => ?_
    exact (ih fun x hx => h x (List.mem_cons_of_mem _ hx)).bind fun values => .pure _

theorem userCall_alike (head : String) (s : Span) {es : List Expr} (h : ∀ e ∈ es, r.Alike (f e) (g e)) :
    r.Alike (Lower.userCall head s (es.map f)) (Lower.userCall head (r.span s) (es.map g)) := by
  intro target
  refine .get_bind fun t => ?_
  rw [show (r.state t).scope = t.scope from rfl, show (r.state t).context = r.context t.context from rfl,
    signature?_context]
  cases t.scope.lookup? head with
  | none => exact .throw _
  | some storage =>
    cases storage with
    | slot _ => exact .throw _
    | function =>
      cases t.context.signature? head with
      | none => exact .throw _
      | some sig =>
        simp only [Option.map_some, List.length_map]
        change r.Mirrors r.state _ (if sig.arity = es.length then _ else _)
        split
        · exact (operands_mirrors h).bind fun values => emit_mirrors _
        · exact .throw _

end Lists

theorem choice_none_alike {test test' yes yes' : Lowering} (ht : r.Alike test test') (hy : r.Alike yes yes') :
    r.Alike (Lower.choice test yes none) (Lower.choice test' yes' none) := by
  intro target
  rw [choice_none_eq, choice_none_eq]
  refine freshReg_mirrors.bind fun flag => (ht flag).bind fun _ => freshLabel_mirrors.bind fun n => ?_
  refine (newBlock_mirrors _).bind fun yesBlock => (newBlock_mirrors _).bind fun endBlock => ?_
  refine currentBlock_mirrors.bind fun testExit => (terminate_mirrors _).bind fun _ => ?_
  refine (position_mirrors _).bind fun _ => freshReg_mirrors.bind fun yesValue => (hy yesValue).bind fun _ => ?_
  refine currentBlock_mirrors.bind fun yesExit => (terminate_mirrors _).bind fun _ => ?_
  exact (position_mirrors _).bind fun _ => emit_mirrors _

theorem choice_some_alike {test test' yes yes' no no' : Lowering} (ht : r.Alike test test')
    (hy : r.Alike yes yes') (hn : r.Alike no no') :
    r.Alike (Lower.choice test yes (some no)) (Lower.choice test' yes' (some no')) := by
  intro target
  rw [choice_some_eq, choice_some_eq]
  refine freshReg_mirrors.bind fun flag => (ht flag).bind fun _ => freshLabel_mirrors.bind fun n => ?_
  refine (newBlock_mirrors _).bind fun yesBlock => (newBlock_mirrors _).bind fun noBlock => ?_
  refine (newBlock_mirrors _).bind fun endBlock => currentBlock_mirrors.bind fun _ => ?_
  refine (terminate_mirrors _).bind fun _ => (position_mirrors _).bind fun _ => ?_
  refine freshReg_mirrors.bind fun yesValue => (hy yesValue).bind fun _ => ?_
  refine currentBlock_mirrors.bind fun yesExit => (terminate_mirrors _).bind fun _ => ?_
  refine (position_mirrors _).bind fun _ => freshReg_mirrors.bind fun noValue => (hn noValue).bind fun _ => ?_
  refine currentBlock_mirrors.bind fun noExit => (terminate_mirrors _).bind fun _ => ?_
  exact (position_mirrors _).bind fun _ => emit_mirrors _

/-- The only step that looks at the system. -/
theorem write_alike {fd fd' buffer buffer' length length' : Lowering} (h₁ : r.Alike fd fd')
    (h₂ : r.Alike buffer buffer') (h₃ : r.Alike length length') :
    r.Alike (Lower.write fd buffer length) (Lower.write fd' buffer' length') := by
  intro target
  refine freshReg_mirrors.bind fun fdReg => freshReg_mirrors.bind fun bufferReg => ?_
  refine freshReg_mirrors.bind fun lengthReg => (h₁ fdReg).bind fun _ => (h₂ bufferReg).bind fun _ => ?_
  refine (h₃ lengthReg).bind fun _ => freshReg_mirrors.bind fun address => (emit_mirrors _).bind fun _ => ?_
  refine .get_bind fun s => freshReg_mirrors.bind fun status => (emit_mirrors (.asm status _ _ _)).bind fun _ => ?_
  refine freshReg_mirrors.bind fun complete => (emit_mirrors _).bind fun _ => freshLabel_mirrors.bind fun n => ?_
  refine (newBlock_mirrors _).bind fun okBlock => (newBlock_mirrors _).bind fun failBlock => ?_
  refine (newBlock_mirrors _).bind fun endBlock => (terminate_mirrors _).bind fun _ => ?_
  refine (position_mirrors _).bind fun _ => (terminate_mirrors _).bind fun _ => ?_
  refine (position_mirrors _).bind fun _ => (terminate_mirrors _).bind fun _ => ?_
  exact (position_mirrors _).bind fun _ => emit_mirrors _

end Recast
end SmallLisp
