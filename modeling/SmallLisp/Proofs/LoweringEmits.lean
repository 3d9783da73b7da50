import SmallLisp.Proofs.LoweringSteps
import SmallLisp.Proofs.SplitTree

/-! # Compilation emits code

Compiling an expression in a function under construction appends its code, in the sense of `Emits`, and
turns the definitions inside it into finished functions. There is one lemma for each combinator that
leaves a value in a register; the walk over the syntax only chooses among them. A fault of the compiler
itself is met only at an empty body.
-/
namespace SmallLisp
open IR (Reg BlockId Operand Instr Item Code Layout)

/-- A state after the code of a piece was appended to a layout. The definitions in the piece are declared
and their functions are finished. -/
def LowerState.Emitted (t : LowerState) (cx : Context) (σ : Scope Storage) (L : Layout)
    (waiting : List (BlockId × String)) (p : Point) (sites : List Site) (piece : Piece) : Prop :=
  ∃ cx' σ' code p', t.At cx' σ' (L.append code) waiting p' ∧
    cx.Grows cx' (sites.map (·.definition)) sites ∧
    ∀ known, cx'.Agrees known → Emits cx.abi known piece σ p code σ' p'

/-- A combinator that compiles what becomes a piece once the target is known. -/
def Lowers (hollow : Prop) (l : Lowering) (piece : Reg → Piece) (sites : List Site) : Prop :=
  ∀ target {cx σ L waiting p s}, LowerState.At s cx σ L waiting p →
    Yields hollow (l target) s fun _ t => t.Emitted cx σ L waiting p sites (piece target)

section Combinators
variable {hollow : Prop}

theorem constant_lowers (v : Int64) (span : Span) :
    Lowers hollow (Lower.constant v) (.expr (.int v span)) [] := by
  intro target cx σ L waiting p s h
  refine (emit_yields h _).mono fun _ t ht => ?_
  exact ⟨cx, σ, constantCode v target, p, ht, .refl cx, fun _ _ => .int v span target σ p⟩

theorem load_lowers (x : String) (span : Span) :
    Lowers hollow (Lower.load x span) (.expr (.name x span)) [] := by
  intro target cx σ L waiting p s h
  refine .get_bind ?_
  rw [h.scope]
  cases hx : σ.lookup? x with
  | none => exact .fail trivial
  | some storage =>
    cases storage with
    | function => exact .fail trivial
    | slot slot =>
      refine (emit_yields h _).mono fun _ t ht => ?_
      exact ⟨cx, σ, [.instr (.load target slot)], p, ht, .refl cx, fun _ _ => .name hx span target p⟩

theorem spill_lowers {value : Lowering} {e : Expr} {sites : List Site}
    (h : Lowers hollow value (.expr e) sites) : Lowers hollow (Lower.spill value) (.spill e) sites := by
  intro target cx σ L waiting p s hs
  refine .bind (freshReg_yields hs) ?_
  rintro _ s₁ ⟨rfl, hs₁⟩
  refine .bind (h _ hs₁) ?_
  rintro _ s₂ ⟨cx', σ', code, p', hs₂, hg, hem⟩
  refine .bind (emit_yields hs₂ _) fun _ s₃ hs₃ => ?_
  refine (emit_yields hs₃ _).mono fun _ s₄ hs₄ => ?_
  refine ⟨cx', σ', code ++ spillCode (p.fresh 0) target, p', ?_, hg, fun known hk => .spill (hem known hk)⟩
  simpa [Layout.append_append, spillCode] using hs₄

theorem tree_lowers {f : Expr → Lowering} {g : Expr → List Site} (t : Split Expr)
    (h : ∀ e ∈ t.leaves, Lowers hollow (f e) (.expr e) (g e)) :
    Lowers hollow (Lower.tree (t.map f)) (.tree t) (t.leaves.flatMap g) := by
  induction t with
  | leaf e =>
    intro target cx σ L waiting p s hs
    refine (h e (by simp [Split.leaves]) target hs).mono ?_
    rintro _ s₁ ⟨cx₁, σ₁, c₁, p₁, hs₁, hg₁, hem₁⟩
    rw [Split.leaves, List.flatMap_singleton]
    exact ⟨cx₁, σ₁, c₁, p₁, hs₁, hg₁, fun known hk => .leaf (hem₁ known hk)⟩
  | node op left right ihl ihr =>
    simp only [Split.leaves, List.mem_append] at h
    intro target cx σ L waiting p s hs
    refine .bind (freshReg_yields hs) ?_
    rintro _ s₁ ⟨rfl, hs₁⟩
    refine .bind (freshReg_yields hs₁) ?_
    rintro _ s₂ ⟨rfl, hs₂⟩
    refine .bind (ihl (fun e he => h e (.inl he)) _ hs₂) ?_
    rintro _ s₃ ⟨cx₁, σ₁, c₁, p₁, hs₃, hg₁, hem₁⟩
    refine .bind (ihr (fun e he => h e (.inr he)) _ hs₃) ?_
    rintro _ s₄ ⟨cx₂, σ₂, c₂, p₂, hs₄, hg₂, hem₂⟩
    refine (emit_yields hs₄ _).mono fun _ s₅ hs₅ => ?_
    rw [hg₁.abi] at hem₂
    simp only [Layout.append_append, List.append_assoc] at hs₅
    rw [Split.leaves, List.flatMap_append]
    refine ⟨cx₂, σ₂, _, p₂, hs₅, ?_, fun known hk => ?_⟩
    · simpa only [List.map_append] using hg₁.trans hg₂
    · exact .node (hem₁ known (hg₂.agrees hk)) (hem₂ known hk)

theorem comparison_lowers {left right : Lowering} {x y : Expr} {sites₁ sites₂ : List Site}
    (op : CompareOp) (head : String) (span : Span) (hx : Lowers hollow left (.expr x) sites₁)
    (hy : Lowers hollow right (.expr y) sites₂) :
    Lowers hollow (Lower.comparison op head span [left, right]) (.test op x y) (sites₁ ++ sites₂) := by
  intro target cx σ L waiting p s hs
  refine .bind (freshReg_yields hs) ?_
  rintro _ s₁ ⟨rfl, hs₁⟩
  refine .bind (freshReg_yields hs₁) ?_
  rintro _ s₂ ⟨rfl, hs₂⟩
  refine .bind (hx _ hs₂) ?_
  rintro _ s₃ ⟨cx₁, σ₁, c₁, p₁, hs₃, hg₁, hem₁⟩
  refine .bind (hy _ hs₃) ?_
  rintro _ s₄ ⟨cx₂, σ₂, c₂, p₂, hs₄, hg₂, hem₂⟩
  refine (emit_yields hs₄ _).mono fun _ s₅ hs₅ => ?_
  rw [hg₁.abi] at hem₂
  simp only [Layout.append_append, List.append_assoc] at hs₅
  refine ⟨cx₂, σ₂, _, p₂, hs₅, ?_, fun known hk => ?_⟩
  · simpa only [List.map_append] using hg₁.trans hg₂
  · exact .test (hem₁ known (hg₂.agrees hk)) (hem₂ known hk)

theorem comparisonValue_lowers {c : Call} {op : CompareOp} {left right : Lowering} {x y : Expr}
    {sites₁ sites₂ : List Site} (hop : Builtin.ofHead? c.head = some (.compare op))
    (hargs : c.args = [x, y]) (span : Span) (hx : Lowers hollow left (.expr x) sites₁)
    (hy : Lowers hollow right (.expr y) sites₂) :
    Lowers hollow (Lower.comparisonValue op c.head c.span [left, right]) (.expr (.call c span))
      (sites₁ ++ sites₂) := by
  intro target cx σ L waiting p s hs
  refine .bind (freshReg_yields hs) ?_
  rintro _ s₁ ⟨rfl, hs₁⟩
  refine .bind (comparison_lowers op c.head c.span hx hy _ hs₁) ?_
  rintro _ s₂ ⟨cx', σ', code, p', hs₂, hg, hem⟩
  refine (emit_yields hs₂ _).mono fun _ s₃ hs₃ => ?_
  rw [Layout.append_append] at hs₃
  exact ⟨cx', σ', _, p', hs₃, hg, fun known hk => .compare hop hargs (hem known hk)⟩

theorem operands_lower {f : Expr → Lowering} {g : Expr → List Site} (es : List Expr)
    (h : ∀ e ∈ es, Lowers hollow (f e) (.expr e) (g e)) {cx : Context} {σ : Scope Storage} {L : Layout}
    {waiting : List (BlockId × String)} {p : Point} {s : LowerState} (hs : s.At cx σ L waiting p) :
    Yields hollow (Lower.operands (es.map f)) s fun values t => ∃ rs : List Reg, values = rs.map .reg ∧
      t.Emitted cx σ L waiting p (es.flatMap g) (.operands es rs) := by
  induction es generalizing cx σ L p s with
  | nil => exact .pure ⟨[], rfl, cx, σ, [], p, hs, .refl cx, fun _ _ => .noOperands σ p⟩
  | cons e es ih =>
    refine .bind (freshReg_yields hs) ?_
    rintro _ s₁ ⟨rfl, hs₁⟩
    refine .bind (h e List.mem_cons_self _ hs₁) ?_
    rintro _ s₂ ⟨cx₁, σ₁, c₁, p₁, hs₂, hg₁, hem₁⟩
    refine .bind (ih (fun x hx => h x (List.mem_cons_of_mem _ hx)) hs₂) ?_
    rintro _ s₃ ⟨rs, rfl, cx₂, σ₂, c₂, p₂, hs₃, hg₂, hem₂⟩
    rw [hg₁.abi] at hem₂
    rw [Layout.append_append] at hs₃
    refine .pure ⟨p.fresh 0 :: rs, rfl, cx₂, σ₂, c₁ ++ c₂, p₂, hs₃, ?_, fun known hk => ?_⟩
    · simpa only [List.flatMap_cons, List.map_append] using hg₁.trans hg₂
    · exact .operand (hem₁ known (hg₂.agrees hk)) (hem₂ known hk)

theorem userCall_lowers {c : Call} {f : Expr → Lowering} {g : Expr → List Site} (span : Span)
    (hop : Builtin.ofHead? c.head = none)
    (h : ∀ e ∈ c.args, Lowers hollow (f e) (.expr e) (g e)) :
    Lowers hollow (Lower.userCall c.head c.span (c.args.map f)) (.expr (.call c span))
      (c.args.flatMap g) := by
  intro target cx σ L waiting p s hs
  refine .get_bind ?_
  rw [hs.scope, hs.context]
  cases hσ : σ.lookup? c.head with
  | none => exact .fail trivial
  | some storage =>
    cases storage with
    | slot _ => exact .fail trivial
    | function =>
      cases hsig : cx.signature? c.head with
      | none => exact .fail trivial
      | some sig =>
        dsimp only
        split
        case isFalse => exact .fail trivial
        case isTrue harity =>
          refine .bind (operands_lower c.args h hs) ?_
          rintro _ s₁ ⟨rs, rfl, cx', σ', code, p', hs₁, hg, hem⟩
          refine (emit_yields hs₁ _).mono fun _ s₂ hs₂ => ?_
          rw [Layout.append_append] at hs₂
          refine ⟨cx', σ', _, p', hs₂, hg, fun known hk => .user hop hσ ?_ (hem known hk)⟩
          have hknown := hg.agrees hk _ _ (Context.mem_of_signature? hsig)
          rwa [harity, List.length_map] at hknown

/-! ## Choices and writes -/

/-- The steps of a choice without a second value. -/
theorem choice_none_eq (test yes : Lowering) (target : Reg) :
    Lower.choice test yes none target = (do
      let flag ← LowerM.freshReg
      test flag
      let n ← LowerM.freshLabel
      let yesBlock ← LowerM.newBlock ("if.then." ++ toString n)
      let endBlock ← LowerM.newBlock ("if.end." ++ toString n)
      let testExit ← LowerM.currentBlock
      LowerM.terminate (.condBr flag yesBlock endBlock)
      LowerM.position yesBlock
      let yesValue ← LowerM.freshReg
      yes yesValue
      let yesExit ← LowerM.currentBlock
      LowerM.terminate (.br endBlock)
      LowerM.position endBlock
      LowerM.emit (.phi target [(.reg yesValue, yesExit), (.const 0, testExit)])) := rfl

/-- The steps of a choice between two values. -/
theorem choice_some_eq (test yes no : Lowering) (target : Reg) :
    Lower.choice test yes (some no) target = (do
      let flag ← LowerM.freshReg
      test flag
      let n ← LowerM.freshLabel
      let yesBlock ← LowerM.newBlock ("if.then." ++ toString n)
      let noBlock ← LowerM.newBlock ("if.else." ++ toString n)
      let endBlock ← LowerM.newBlock ("if.end." ++ toString n)
      let _ ← LowerM.currentBlock
      LowerM.terminate (.condBr flag yesBlock noBlock)
      LowerM.position yesBlock
      let yesValue ← LowerM.freshReg
      yes yesValue
      let yesExit ← LowerM.currentBlock
      LowerM.terminate (.br endBlock)
      LowerM.position noBlock
      let noValue ← LowerM.freshReg
      no noValue
      let noExit ← LowerM.currentBlock
      LowerM.terminate (.br endBlock)
      LowerM.position endBlock
      LowerM.emit (.phi target [(.reg yesValue, yesExit), (.reg noValue, noExit)])) := rfl

section Choice
variable {t : Call} {op : CompareOp} {x y yes : Expr} {test value : Lowering}
  {sites₁ sites₂ : List Site}

theorem choice_none_lowers (hop : Builtin.ofHead? t.head = some (.compare op)) (hargs : t.args = [x, y])
    (span : Span) (htest : Lowers hollow test (.test op x y) sites₁)
    (hyes : Lowers hollow value (.expr yes) sites₂) :
    Lowers hollow (Lower.choice test value none) (.expr (.branch t yes none span))
      (sites₁ ++ sites₂) := by
  intro target cx σ L waiting p s hs
  rw [choice_none_eq]
  refine .bind (freshReg_yields hs) ?_
  rintro _ s₁ ⟨rfl, hs₁⟩
  refine .bind (htest _ hs₁) ?_
  rintro _ s₂ ⟨cx₁, σ₁, c₁, p₁, hs₂, hg₁, hem₁⟩
  refine .bind (freshLabel_yields hs₂) ?_
  rintro _ s₃ ⟨rfl, hs₃⟩
  refine .bind (newBlock_yields hs₃ _) ?_
  rintro _ s₄ ⟨rfl, hs₄⟩
  refine .bind (newBlock_yields hs₄ _) ?_
  rintro _ s₅ ⟨rfl, hs₅⟩
  refine .bind (currentBlock_yields hs₅) ?_
  rintro _ s₆ ⟨rfl, hs₆⟩
  rw [List.append_assoc] at hs₆
  refine advance_bind hs₆ _ fun s₇ hs₇ => ?_
  refine .bind (freshReg_yields hs₇) ?_
  rintro _ s₈ ⟨rfl, hs₈⟩
  refine .bind (hyes _ hs₈) ?_
  rintro _ s₉ ⟨cx₂, σ₂, c₂, p₂, hs₉, hg₂, hem₂⟩
  refine .bind (currentBlock_yields hs₉) ?_
  rintro _ s₁₀ ⟨rfl, hs₁₀⟩
  refine advance_bind hs₁₀ _ fun s₁₁ hs₁₁ => ?_
  refine (emit_yields hs₁₁ _).mono fun _ s₁₂ hs₁₂ => ?_
  rw [hg₁.abi] at hem₂
  simp only [Layout.append_append, List.append_assoc, List.append_nil] at hs₁₂
  refine ⟨cx₂, σ₂, _, _, hs₁₂, ?_, fun known hk => ?_⟩
  · simpa only [List.map_append] using hg₁.trans hg₂
  · exact .branch hop hargs (hem₁ known (hg₂.agrees hk)) (hem₂ known hk)

theorem choice_some_lowers {no : Expr} {other : Lowering} {sites₃ : List Site}
    (hop : Builtin.ofHead? t.head = some (.compare op)) (hargs : t.args = [x, y])
    (span : Span) (htest : Lowers hollow test (.test op x y) sites₁)
    (hyes : Lowers hollow value (.expr yes) sites₂) (hno : Lowers hollow other (.expr no) sites₃) :
    Lowers hollow (Lower.choice test value (some other)) (.expr (.branch t yes (some no) span))
      (sites₁ ++ sites₂ ++ sites₃) := by
  intro target cx σ L waiting p s hs
  rw [choice_some_eq]
  refine .bind (freshReg_yields hs) ?_
  rintro _ s₁ ⟨rfl, hs₁⟩
  refine .bind (htest _ hs₁) ?_
  rintro _ s₂ ⟨cx₁, σ₁, c₁, p₁, hs₂, hg₁, hem₁⟩
  refine .bind (freshLabel_yields hs₂) ?_
  rintro _ s₃ ⟨rfl, hs₃⟩
  refine .bind (newBlock_yields hs₃ _) ?_
  rintro _ s₄ ⟨rfl, hs₄⟩
  refine .bind (newBlock_yields hs₄ _) ?_
  rintro _ s₅ ⟨rfl, hs₅⟩
  refine .bind (newBlock_yields hs₅ _) ?_
  rintro _ s₆ ⟨rfl, hs₆⟩
  refine .bind (currentBlock_yields hs₆) ?_
  rintro _ s₇ ⟨rfl, hs₇⟩
  rw [List.append_assoc, List.append_assoc] at hs₇
  refine advance_bind hs₇ _ fun s₈ hs₈ => ?_
  refine .bind (freshReg_yields hs₈) ?_
  rintro _ s₉ ⟨rfl, hs₉⟩
  refine .bind (hyes _ hs₉) ?_
  rintro _ s₁₀ ⟨cx₂, σ₂, c₂, p₂, hs₁₀, hg₂, hem₂⟩
  refine .bind (currentBlock_yields hs₁₀) ?_
  rintro _ s₁₁ ⟨rfl, hs₁₁⟩
  refine advance_bind hs₁₁ _ fun s₁₂ hs₁₂ => ?_
  refine .bind (freshReg_yields hs₁₂) ?_
  rintro _ s₁₃ ⟨rfl, hs₁₃⟩
  refine .bind (hno _ hs₁₃) ?_
  rintro _ s₁₄ ⟨cx₃, σ₃, c₃, p₃, hs₁₄, hg₃, hem₃⟩
  refine .bind (currentBlock_yields hs₁₄) ?_
  rintro _ s₁₅ ⟨rfl, hs₁₅⟩
  refine advance_bind hs₁₅ _ fun s₁₆ hs₁₆ => ?_
  refine (emit_yields hs₁₆ _).mono fun _ s₁₇ hs₁₇ => ?_
  rw [hg₁.abi] at hem₂
  rw [hg₂.abi, hg₁.abi] at hem₃
  simp only [Layout.append_append, List.append_assoc, List.append_nil] at hs₁₇
  refine ⟨cx₃, σ₃, _, _, hs₁₇, ?_, fun known hk => ?_⟩
  · simpa only [List.map_append] using (hg₁.trans hg₂).trans hg₃
  · have hk₂ := hg₃.agrees hk
    exact .branchElse hop hargs (hem₁ known (hg₂.agrees hk₂)) (hem₂ known hk₂) (hem₃ known hk)

end Choice

theorem write_lowers {c : Call} {fd e length : Expr} {sr : Span} {l₁ l₂ l₃ : Lowering}
    {sites₁ sites₂ sites₃ : List Site} (hop : Builtin.ofHead? c.head = some .sysWrite)
    (hargs : c.args = [fd, .ref e sr, length]) (span : Span) (h₁ : Lowers hollow l₁ (.expr fd) sites₁)
    (h₂ : Lowers hollow l₂ (.spill e) sites₂) (h₃ : Lowers hollow l₃ (.expr length) sites₃) :
    Lowers hollow (Lower.write l₁ l₂ l₃) (.expr (.call c span)) (sites₁ ++ sites₂ ++ sites₃) := by
  intro target cx σ L waiting p s hs
  refine .bind (freshReg_yields hs) ?_
  rintro _ s₁ ⟨rfl, hs₁⟩
  refine .bind (freshReg_yields hs₁) ?_
  rintro _ s₂ ⟨rfl, hs₂⟩
  refine .bind (freshReg_yields hs₂) ?_
  rintro _ s₃ ⟨rfl, hs₃⟩
  refine .bind (h₁ _ hs₃) ?_
  rintro _ s₄ ⟨cx₁, σ₁, c₁, p₁, hs₄, hg₁, hem₁⟩
  refine .bind (h₂ _ hs₄) ?_
  rintro _ s₅ ⟨cx₂, σ₂, c₂, p₂, hs₅, hg₂, hem₂⟩
  refine .bind (h₃ _ hs₅) ?_
  rintro _ s₆ ⟨cx₃, σ₃, c₃, p₃, hs₆, hg₃, hem₃⟩
  refine .bind (freshReg_yields hs₆) ?_
  rintro _ s₇ ⟨rfl, hs₇⟩
  refine .bind (emit_yields hs₇ _) fun _ s₈ hs₈ => ?_
  refine .get_bind ?_
  refine .bind (freshReg_yields hs₈) ?_
  rintro _ s₉ ⟨rfl, hs₉⟩
  refine .bind (emit_yields hs₉ _) fun _ s₁₀ hs₁₀ => ?_
  refine .bind (freshReg_yields hs₁₀) ?_
  rintro _ s₁₁ ⟨rfl, hs₁₁⟩
  refine .bind (emit_yields hs₁₁ _) fun _ s₁₂ hs₁₂ => ?_
  refine .bind (freshLabel_yields hs₁₂) ?_
  rintro _ s₁₃ ⟨rfl, hs₁₃⟩
  refine .bind (newBlock_yields hs₁₃ _) ?_
  rintro _ s₁₄ ⟨rfl, hs₁₄⟩
  refine .bind (newBlock_yields hs₁₄ _) ?_
  rintro _ s₁₅ ⟨rfl, hs₁₅⟩
  refine .bind (newBlock_yields hs₁₅ _) ?_
  rintro _ s₁₆ ⟨rfl, hs₁₆⟩
  rw [List.append_assoc, List.append_assoc] at hs₁₆
  refine advance_bind hs₁₆ _ fun s₁₇ hs₁₇ => ?_
  refine advance_bind hs₁₇ _ fun s₁₈ hs₁₈ => ?_
  refine advance_bind hs₁₈ _ fun s₁₉ hs₁₉ => ?_
  refine (emit_yields hs₁₉ _).mono fun _ s₂₀ hs₂₀ => ?_
  rw [hg₁.abi] at hem₂
  rw [hg₂.abi, hg₁.abi] at hem₃
  have habi : s₈.context.abi = cx.abi := by rw [hs₈.context, hg₃.abi, hg₂.abi, hg₁.abi]
  simp only [Layout.append_append, List.append_assoc, List.append_nil, habi] at hs₂₀
  refine ⟨cx₃, σ₃, _, _, hs₂₀, ?_, fun known hk => ?_⟩
  · simpa only [List.map_append] using (hg₁.trans hg₂).trans hg₃
  · have hk₂ := hg₃.agrees hk
    exact .write hop hargs (hem₁ known (hg₂.agrees hk₂)) (hem₂ known hk₂) (hem₃ known hk)

end Combinators
end SmallLisp
