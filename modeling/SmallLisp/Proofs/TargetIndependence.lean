import SmallLisp.Proofs.CompiledModule
import SmallLisp.Proofs.Recasting

/-! # What compiled code depends on

The walk over the syntax compiles an expression with other spans, or for another system, alike. So the spans of a
program decide over nothing but the spans of an error, and the system over nothing but how the kernel is entered.
-/
namespace SmallLisp
namespace Recast
variable {r : Recast}

variable (r) in
def Keeps (e : Expr) : Prop := ∀ root, r.Alike (e.lower root) ((e.mapSpans r.span).lower root)

theorem lowerEach_mapSpans (root : Scope Storage) (es : List Expr) :
    lowerEach (es.map (·.mapSpans r.span)) root = es.map fun e => (e.mapSpans r.span).lower root := by
  rw [lowerEach_eq_map, List.map_map]
  rfl

theorem lowerBody_alike (function : String) (root : Scope Storage) {es : List Expr} (h : ∀ e ∈ es, r.Keeps e) :
    r.Alike (lowerBody function es root) (lowerBody function (es.map (·.mapSpans r.span)) root) := by
  induction es with
  | nil =>
    rw [List.map_nil, lowerBody]
    exact throw_alike _
  | cons e es ih =>
    cases es with
    | nil =>
      rw [List.map_singleton, lowerBody, lowerBody]
      exact h e List.mem_cons_self root
    | cons e' es =>
      have hrest := ih fun x hx => h x (List.mem_cons_of_mem _ hx)
      rw [List.map_cons] at hrest ⊢
      rw [List.map_cons, lowerBody, lowerBody]
      exact fun target => freshReg_mirrors.bind fun v => (h e List.mem_cons_self root v).bind fun _ => hrest target

theorem forM_mirrors {σ α β : Type} {φ : σ → σ} {f : α → EStateM CompileError σ Unit}
    {g : β → EStateM CompileError σ Unit} (m : α → β) {xs : List α}
    (h : ∀ x ∈ xs, r.Mirrors φ (f x) (g (m x))) : r.Mirrors φ (xs.forM f) ((xs.map m).forM g) := by
  induction xs with
  | nil => exact .pure ()
  | cons x xs ih =>
    exact (h x List.mem_cons_self).bind fun _ => ih fun y hy => h y (List.mem_cons_of_mem _ hy)

theorem definition_mirrors {d : Definition} (root : Scope Storage) (h : ∀ e ∈ d.body, r.Keeps e) :
    r.Mirrors r.context (d.lower root) ((d.mapSpans r.span).lower root) := by
  obtain ⟨name, params, body, span⟩ := d
  rw [Definition.mapSpans, mapSpansEach_eq_map, Definition.lower, Definition.lower]
  have hparams := forM_mirrors id fun x (_ : x ∈ params) => parameter_mirrors (r := r) x
  rw [List.map_id] at hparams
  refine inFunction_mirrors name params root (hparams.bind fun _ => ?_)
  exact freshReg_mirrors.bind fun result =>
    (lowerBody_alike name root h result).bind fun _ => terminate_mirrors _

theorem define_keeps {d : Definition} (s : Span) (h : ∀ e ∈ d.body, r.Keeps e) : r.Keeps (.define d s) := by
  intro root target
  rw [Expr.mapSpans, Expr.lower_define, Expr.lower_define]
  have hname : (d.mapSpans r.span).name = d.name := by rw [Definition.mapSpans_eq]
  rw [hname]
  refine (inContext_mirrors (declare_mirrors d)).bind fun _ => (define_mirrors _ _).bind fun _ => ?_
  exact (inContext_mirrors (definition_mirrors _ h)).bind fun _ => constant_alike 0 target

theorem branch_keeps {t : Call} {y : Expr} {n : Option Expr} (s : Span) (ht : ∀ e ∈ t.args, r.Keeps e)
    (hy : r.Keeps y) (hn : ∀ e ∈ n, r.Keeps e) : r.Keeps (.branch t y n s) := by
  intro root
  rw [Expr.mapSpans_branch, Expr.lower_branch, Expr.lower_branch, Call.mapSpans_eq, lowerEach_mapSpans,
    lowerEach_eq_map, Lower.conditional, Lower.conditional]
  dsimp only
  split
  · next op _ =>
    have htest := comparison_alike op t.head t.span fun e he => ht e he root
    cases n with
    | none => exact choice_none_alike htest (hy root)
    | some e => exact choice_some_alike htest (hy root) (hn e rfl root)
  · exact throw_alike _

/-- The operands of a write, of which the second is a reference and compiled without it. -/
theorem write_keeps {c : Call} (s : Span) (hop : Builtin.ofHead? c.head = some .sysWrite)
    (h : ∀ e ∈ c.args, r.Keeps e) (href : ∀ e s, .ref e s ∈ c.args → r.Keeps e) : r.Keeps (.call c s) := by
  intro root
  rw [Expr.mapSpans]
  change r.Alike (c.lower root) ((c.mapSpans r.span).lower root)
  obtain ⟨head, args, span⟩ := c
  rw [Call.lower_eq, Call.lower_eq, Call.mapSpans_eq]
  dsimp only at hop h href ⊢
  rw [hop]
  rcases args with _ | ⟨fd, _ | ⟨other, _ | ⟨length, _ | ⟨extra, es⟩⟩⟩⟩
  case nil => exact throw_alike (.wrongArity head (.exactly 3) 0 span)
  case cons.nil => exact throw_alike (.wrongArity head (.exactly 3) 1 span)
  case cons.cons.nil =>
    have herror := throw_alike (r := r) (.wrongArity head (.exactly 3) 2 span)
    simpa [CompileError.mapSpans] using herror
  case cons.cons.cons.cons =>
    have herror := throw_alike (r := r) (.wrongArity head (.exactly 3) (es.length + 4) span)
    simpa [CompileError.mapSpans] using herror
  case cons.cons.cons.nil =>
    have hfd := h fd (by simp) root
    have hlength := h length (by simp) root
    cases other with
    | ref value s =>
      rw [List.map_cons, List.map_cons, Expr.mapSpans]
      exact write_alike hfd (spill_alike (href value s (by simp) root)) hlength
    | branch t y n s =>
      rw [List.map_cons, List.map_cons, Expr.mapSpans_branch]
      exact throw_alike _
    | _ =>
      rw [List.map_cons, List.map_cons, Expr.mapSpans]
      exact throw_alike _

theorem call_keeps {c : Call} (s : Span) (h : ∀ e ∈ c.args, r.Keeps e)
    (href : ∀ e s, .ref e s ∈ c.args → r.Keeps e) : r.Keeps (.call c s) := by
  by_cases hwrite : Builtin.ofHead? c.head = some .sysWrite
  · exact write_keeps s hwrite h href
  intro root
  rw [Expr.mapSpans]
  change r.Alike (c.lower root) ((c.mapSpans r.span).lower root)
  have hargs : ∀ e ∈ c.args, r.Alike (e.lower root) ((e.mapSpans r.span).lower root) := fun e he => h e he root
  rw [Call.lower_eq, Call.lower_eq, Call.mapSpans_eq, lowerEach_mapSpans, lowerEach_eq_map]
  cases hop : Builtin.ofHead? c.head with
  | none => exact userCall_alike _ _ hargs
  | some op =>
    cases op with
    | arith op => exact arithmetic_alike _ _ _ hargs
    | compare op => exact comparisonValue_alike _ _ _ hargs
    | sysWrite => exact absurd hop hwrite

theorem keeps (e : Expr) : r.Keeps e := by
  suffices hboth : r.Keeps e ∧ ∀ v s, e = .ref v s → r.Keeps v from hboth.1
  induction e using Expr.induction with
  | int v s => exact ⟨fun _ => constant_alike v, nofun⟩
  | name x s => exact ⟨fun _ => load_alike x s, nofun⟩
  | ref e s ih =>
    refine ⟨fun _ => throw_alike _, fun v s' h => ?_⟩
    cases h
    exact ih.1
  | call c s ih => exact ⟨call_keeps s (fun e he => (ih e he).1) fun e s he => (ih _ he).2 e s rfl, nofun⟩
  | define d s ih => exact ⟨define_keeps s fun e he => (ih e he).1, nofun⟩
  | branch t y n s iht ihy ihn =>
    exact ⟨branch_keeps s (fun e he => (iht e he).1) ihy.1 fun e he => (ihn e he).1, nofun⟩

theorem compileSteps_mirrors (program : List Expr) :
    r.Mirrors r.context (compileSteps program) (compileSteps (program.map (·.mapSpans r.span))) := by
  refine declareFrom_mirrors program .empty fun root ds => ?_
  exact forM_mirrors _ fun d _ => definition_mirrors root fun e _ => keeps e

end Recast

/-- Compiling a program with other spans for another system fails with the same error apart from its spans, or
makes the same module apart from how the kernel is entered. -/
theorem compile_recast (f : Span → Span) (abi abi' : IR.Abi) (name : String) (program : List Expr) :
    compile abi' name (program.map (·.mapSpans f)) =
      ((compile abi name program).map (·.retarget abi')).mapError (·.mapSpans f) := by
  have h := @Recast.compileSteps_mirrors ⟨f, abi'⟩ program (.new name abi)
  rw [compile_eq, compile_eq]
  rw [show Context.new name abi' = Recast.context ⟨f, abi'⟩ (.new name abi) from rfl, h]
  cases compileSteps program (.new name abi) <;> rfl

theorem CompileError.mapSpans_id (e : CompileError) : e.mapSpans (fun s => s) = e := by
  cases e <;> rfl

theorem compile_map_retarget (abi abi' : IR.Abi) (name : String) (program : List Expr) :
    compile abi' name program = (compile abi name program).map (·.retarget abi') := by
  have h := compile_recast (fun s => s) abi abi' name program
  simp only [Expr.mapSpans_id, List.map_id'] at h
  rw [h]
  cases compile abi name program with
  | ok m => rfl
  | error e => exact congrArg Except.error e.mapSpans_id

/-- For every two systems a program is compiled alike: it fails with the same error for both, or each of the two
modules is the other with its own way to enter the kernel. -/
theorem compile_retarget (abi abi' : IR.Abi) (name : String) (program : List Expr) :
    (∃ e, compile abi name program = .error e ∧ compile abi' name program = .error e) ∨
      ∃ m m', compile abi name program = .ok m ∧ compile abi' name program = .ok m' ∧
        m' = m.retarget abi' ∧ m = m'.retarget abi := by
  have hforth := compile_map_retarget abi abi' name program
  have hback := compile_map_retarget abi' abi name program
  rw [hforth]
  cases h : compile abi name program with
  | error e => exact .inl ⟨e, rfl, rfl⟩
  | ok m =>
    rw [hforth, h] at hback
    exact .inr ⟨m, m.retarget abi', rfl, rfl, rfl, Except.ok.inj hback⟩

end SmallLisp
