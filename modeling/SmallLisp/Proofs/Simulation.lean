import SmallLisp.Proofs.CodeSteps
import SmallLisp.Proofs.EmissionChecks

/-! # Emitted code computes the meaning

Wherever the code of a piece stands, the machine realizes the meaning of the piece when it executes the
code: the results are then in their registers, and what was computed before is kept. There is one lemma
for each construct. A call is assumed to realize the meaning of the function called.
-/
namespace SmallLisp
open IR (Reg BlockId Operand Instr Item Code State Terminator KernelCall)

theorem ArithOp.apply_instruction (op : ArithOp) (a b : Int64) : op.instruction.apply a b = op.apply a b := by
  cases op <;> rfl

theorem CompareOp.holds_pred (op : CompareOp) (a b : Int64) : op.pred.holds a b = op.holds a b := by
  cases op <;> rfl

/-- Every call instruction realizes the meaning of the call. -/
def CallsRealized (m : IR.Module) (answers : Nat → Int64) (abi : IR.Abi) (known : String → Nat → Prop)
    (depth : Nat) (call : String → List Int64 → Run Int64) : Prop :=
  ∀ {name args vs dst is} {s : State} {ws}, known name vs.length → s.top.todo = .call dst name args :: is →
    args.mapM s.top.read = some vs → List.Forall₂ (KernelCall.Asks abi) s.trace ws →
    Realizes m answers depth s (call name vs ws) fun v ws' t => ∃ memory trace, s.memory <+: memory ∧
      List.Forall₂ (KernelCall.Asks abi) trace ws' ∧
      t = ⟨{ s.top with todo := is }.set dst (.int v), s.callers, memory, trace⟩

/-- The registers and blocks that a piece may define are apart from those that are in use. -/
structure Setting.Room (E : Setting) (targets : List Reg) (p : Point) : Prop where
  slots : E.slots < p.reg
  current : p.current.index < p.block
  targets : ∀ r ∈ targets, E.slots < r.index ∧ r.index < p.reg

/-- Code that realizes a computation wherever it stands in the code of a function. -/
def Setting.Simulates {α : Type} (E : Setting) (m : IR.Module) (answers : Nat → Int64) (depth : Nat)
    (targets : List Reg) (σ : Scope Storage) (p : Point) (code : Code) (σ' : Scope Storage) (p' : Point)
    (run : Run α) (holds : α → State → Prop) : Prop :=
  E.Room targets p → ∀ {rest s ws}, E.Ready σ p.current (code ++ rest) s ws →
    Realizes m answers depth s (run ws) fun v ws' t =>
      E.Ready σ' p'.current rest t ws' ∧ Keeps s t p.reg targets ∧ holds v t

def HoldsInt (r : Reg) (v : Int64) (s : State) : Prop := s.top.regs r = some (.int v)

def HoldsSlot (r : Reg) (v : Int64) (s : State) : Prop :=
  ∃ i, s.top.regs r = some (.slot i) ∧ s.memory[i]? = some v

def Piece.Simulated (E : Setting) (m : IR.Module) (answers : Nat → Int64) (depth : Nat)
    (call : String → List Int64 → Run Int64) (piece : Piece) (σ : Scope Storage) (p : Point)
    (code : Code) (σ' : Scope Storage) (p' : Point) : Prop :=
  match piece with
  | .expr e r =>
    E.Simulates m answers depth [r] σ p code σ' p' (e.meaning answers call E.vars) (HoldsInt r)
  | .spill e slot =>
    E.Simulates m answers depth [slot] σ p code σ' p' (e.meaning answers call E.vars) (HoldsSlot slot)
  | .tree t r =>
    E.Simulates m answers depth [r] σ p code σ' p' (t.meaning answers call E.vars) (HoldsInt r)
  | .test op x y flag =>
    E.Simulates m answers depth [flag] σ p code σ' p'
      (Run.compare op [x.meaning answers call E.vars, y.meaning answers call E.vars]) fun b t =>
        t.top.regs flag = some (.bit b)
  | .operands es rs =>
    E.Simulates m answers depth [] σ p code σ' p' (Run.inOrder (es.map (Expr.meaning answers call E.vars)))
      fun vs t => List.Forall₂ (fun r v => HoldsInt r v t) rs vs
  | .body es r =>
    E.Simulates m answers depth [r] σ p code σ' p' (Run.last (es.map (Expr.meaning answers call E.vars)))
      (HoldsInt r)

section Pieces
variable {E : Setting} {m : IR.Module} {answers : Nat → Int64} {depth : Nat}
  {call : String → List Int64 → Run Int64} {abi : IR.Abi} {known : String → Nat → Prop}
  {σ σ' σ₁ σ₂ σ₃ : Scope Storage} {p p' p₁ p₂ p₃ : Point} {code c₁ c₂ c₃ : Code} {piece : Piece}

/-- There is room after the registers and blocks that were made. -/
theorem Setting.Room.after {targets : List Reg} (h : E.Room targets p) {q : Point} (hreg : p.reg ≤ q.reg)
    (hq : q.current.index < q.block) : E.Room [] q :=
  ⟨Nat.lt_of_lt_of_le h.slots hreg, hq, by simp⟩

/-- There is room for a fresh register once it is taken. -/
theorem Setting.Room.fresh {targets : List Reg} (h : E.Room targets p) {q : Point} {i : Nat}
    (hreg : p.reg + i < q.reg) (hq : q.current.index < q.block) : E.Room [p.fresh i] q where
  slots := by
    have := h.slots
    omega
  current := hq
  targets r hr := by
    rw [List.mem_singleton.mp hr, Point.fresh_index]
    have := h.slots
    omega

/-- A register below the limit that is not written keeps its integer. -/
theorem HoldsInt.keep {r : Reg} {v : Int64} {s t : State} {limit : Nat} {targets : List Reg}
    (h : HoldsInt r v s) (hk : Keeps s t limit targets) (hr : r.index < limit) (hn : r ∉ targets) :
    HoldsInt r v t := (hk.regs r hr hn).trans h

theorem HoldsSlot.keep {r : Reg} {v : Int64} {s t : State} {limit : Nat} {targets : List Reg}
    (h : HoldsSlot r v s) (hk : Keeps s t limit targets) (hr : r.index < limit) (hn : r ∉ targets) :
    HoldsSlot r v t := by
  obtain ⟨i, hi, hv⟩ := h
  exact ⟨i, (hk.regs r hr hn).trans hi, hk.memory_eq hv⟩

theorem HoldsInt.read {r : Reg} {v : Int64} {s : State} (h : HoldsInt r v s) (is : List Instr) :
    { s.top with todo := is }.read (.reg r) = some v := by
  unfold HoldsInt at h
  simp only [IR.Activation.read, h]

/-- Registers that hold integers are read one after the other. -/
theorem read_results {rs : List Reg} {vs : List Int64} {s : State}
    (h : List.Forall₂ (fun r v => HoldsInt r v s) rs vs) :
    (rs.map Operand.reg).mapM s.top.read = some vs := by
  induction h with
  | nil => rfl
  | cons hv _ ih =>
    rw [List.map_cons, List.mapM_cons, ih, show s.top.read _ = _ from hv.read s.top.todo]
    rfl

/-! ## Leaves -/

theorem constant_simulated (v : Int64) (r : Reg) :
    E.Simulates m answers depth [r] σ p (constantCode v r) σ p (pure v) (HoldsInt r) := by
  intro hroom rest s ws hs
  have hr := (hroom.targets r (by simp)).1
  obtain ⟨t, hstep, ht, hk, hv⟩ := hs.put (m := m) (v := .int v) hr
    (fun _ => by simp [Instr.run, IR.Activation.read, IR.BinOp.apply])
  exact .of_step (hstep _) (.done ⟨ht, hk _, hv⟩)

theorem name_simulated {x : String} {slot r : Reg} (hx : σ.lookup? x = some (.slot slot)) (span : Span) :
    E.Simulates m answers depth [r] σ p [.instr (.load r slot)] σ p
      ((Expr.name x span).meaning answers call E.vars) (HoldsInt r) := by
  intro hroom rest s ws hs
  have hr := (hroom.targets r (by simp)).1
  obtain ⟨-, i, v, hslot, hv, hvars⟩ := hs.slots x slot hx
  have hmeaning : (Expr.name x span).meaning answers call E.vars = pure v := by
    simp only [Expr.meaning, hvars]
  obtain ⟨t, hstep, ht, hk, hv⟩ := hs.put (m := m) (v := .int v) hr
    (fun _ => by simp [Instr.run, hslot, hv])
  rw [hmeaning]
  exact .of_step (hstep _) (.done ⟨ht, hk _, hv⟩)

/-- A definition only makes its name a function. -/
theorem define_simulated (d : Definition) (span : Span) (r : Reg) :
    (Piece.expr (.define d span) r).Simulated E m answers depth call σ p (constantCode 0 r)
      (σ.define d.name .function) p := by
  intro hroom rest s ws hs
  refine (constant_simulated 0 r hroom hs).mono ?_
  rintro v ws' t ⟨ht, hk, hv⟩
  have hem : Emits E.abi (fun _ _ => True) _ σ p _ _ p := .define d span r σ p
  exact ⟨ht.scope fun _ _ => hem.slot_of_slot, hk, hv⟩

/-! ## Operations -/

section Operations
variable {op : ArithOp} {left right : Split Expr} {r : Reg}

theorem node_simulated (e₁ : Emits abi known (.tree left (p.fresh 0)) σ (p.skip 2) c₁ σ₁ p₁)
    (h₁ : (Piece.tree left (p.fresh 0)).Simulated E m answers depth call σ (p.skip 2) c₁ σ₁ p₁)
    (h₂ : (Piece.tree right (p.fresh 1)).Simulated E m answers depth call σ₁ p₁ c₂ σ₂ p₂) :
    (Piece.tree (.node op left right) r).Simulated E m answers depth call σ p
      (c₁ ++ (c₂ ++ [.instr (.binary r op.instruction (.reg (p.fresh 0)) (.reg (p.fresh 1)))])) σ₂ p₂ := by
  intro hroom rest s ws hs
  have hr := (hroom.targets r (by simp)).1
  have hreg₁ := e₁.before.reg
  rw [Point.skip_reg] at hreg₁
  rw [List.append_assoc, List.append_assoc] at hs
  refine .bind (h₁ (hroom.fresh (by simp) hroom.current) hs) ?_
  rintro a ws₁ t₁ ⟨ht₁, hk₁, ha⟩
  refine .bind (h₂ (hroom.fresh (by omega) (e₁.current_lt hroom.current)) ht₁) ?_
  rintro b ws₂ t₂ ⟨ht₂, hk₂, hb⟩
  have hl := (ha.keep hk₂ (by simp; omega) (by simp)).read rest.instrs
  have hb := hb.read rest.instrs
  cases hv : op.apply a b with
  | none =>
    refine .trap ?_
    rw [IR.Module.step, ht₂.todo]
    simp [Code.instrs, Instr.run, hl, hb, op.apply_instruction, hv]
  | some v =>
    obtain ⟨t, hstep, ht, hk, hres⟩ := ht₂.put (m := m) (v := .int v) hr
      (fun _ => by simp [Instr.run, hl, hb, op.apply_instruction, hv])
    refine .of_step (hstep _) (.done ⟨ht, ?_, hres⟩)
    exact ((hk₁.below (by simp) (by simp)).trans (hk₂.below (by omega) (by simp))).trans (hk _)

theorem arith_simulated {c : Call} {span : Span} {t : Split Expr} (hop : Builtin.ofHead? c.head = some (.arith op))
    (ht : Split.ofList? op c.args = some t)
    (h : (Piece.tree t r).Simulated E m answers depth call σ p code σ' p') :
    (Piece.expr (.call c span) r).Simulated E m answers depth call σ p code σ' p' := by
  have hmeaning : (Expr.call c span).meaning answers call E.vars = t.meaning answers call E.vars := by
    rw [Split.meaning_of_ofList? ht]
    exact Call.meaning_arith hop
  change E.Simulates m answers depth [r] σ p code σ' p' _ (HoldsInt r)
  rw [hmeaning]
  exact h

end Operations

section Comparisons
variable {op : CompareOp} {x y : Expr} {r flag : Reg}

theorem test_simulated (e₁ : Emits abi known (.expr x (p.fresh 0)) σ (p.skip 2) c₁ σ₁ p₁)
    (h₁ : (Piece.expr x (p.fresh 0)).Simulated E m answers depth call σ (p.skip 2) c₁ σ₁ p₁)
    (h₂ : (Piece.expr y (p.fresh 1)).Simulated E m answers depth call σ₁ p₁ c₂ σ₂ p₂) :
    (Piece.test op x y flag).Simulated E m answers depth call σ p
      (c₁ ++ (c₂ ++ [.instr (.icmp flag op.pred (.reg (p.fresh 0)) (.reg (p.fresh 1)))])) σ₂ p₂ := by
  intro hroom rest s ws hs
  have hflag := (hroom.targets flag (by simp)).1
  have hreg₁ := e₁.before.reg
  rw [Point.skip_reg] at hreg₁
  rw [List.append_assoc, List.append_assoc] at hs
  refine .bind (h₁ (hroom.fresh (by simp) hroom.current) hs) ?_
  rintro a ws₁ t₁ ⟨ht₁, hk₁, ha⟩
  refine .bind (h₂ (hroom.fresh (by omega) (e₁.current_lt hroom.current)) ht₁) ?_
  rintro b ws₂ t₂ ⟨ht₂, hk₂, hb⟩
  have hl := (ha.keep hk₂ (by simp; omega) (by simp)).read rest.instrs
  have hb := hb.read rest.instrs
  obtain ⟨t, hstep, ht, hk, hres⟩ := ht₂.put (m := m) (v := .bit (op.holds a b)) hflag
    (fun _ => by simp [Instr.run, hl, hb, op.holds_pred])
  refine .of_step (hstep _) (.done ⟨ht, ?_, hres⟩)
  exact ((hk₁.below (by simp) (by simp)).trans (hk₂.below (by omega) (by simp))).trans (hk _)

theorem compare_simulated {c : Call} {span : Span} (hop : Builtin.ofHead? c.head = some (.compare op))
    (hargs : c.args = [x, y])
    (h : (Piece.test op x y (p.fresh 0)).Simulated E m answers depth call σ (p.skip 1) code σ' p') :
    (Piece.expr (.call c span) r).Simulated E m answers depth call σ p
      (code ++ [.instr (.zext r (p.fresh 0))]) σ' p' := by
  intro hroom rest s ws hs
  have hr := (hroom.targets r (by simp)).1
  have hmeaning : (Expr.call c span).meaning answers call E.vars =
      Run.compare op [x.meaning answers call E.vars, y.meaning answers call E.vars] >>= fun b =>
        pure (if b then 1 else 0) := by
    refine (Call.meaning_compare hop).trans ?_
    rw [hargs]
    refine bind_congr fun b => ?_
    cases b <;> rfl
  rw [hmeaning]
  rw [List.append_assoc] at hs
  refine .bind (h (hroom.fresh (by simp) hroom.current) hs) ?_
  rintro b ws₁ t₁ ⟨ht₁, hk₁, hb⟩
  obtain ⟨t, hstep, ht, hk, hres⟩ := ht₁.put (m := m) (v := .int (if b then 1 else 0)) hr
    (fun _ => by simp [Instr.run, hb])
  exact .of_step (hstep _) (.done ⟨ht, (hk₁.below (by simp) (by simp)).trans (hk _), hres⟩)

end Comparisons

/-! ## Sequences -/

section Sequences
variable {e : Expr} {es : List Expr} {r slot : Reg} {rs : List Reg}

theorem spill_simulated (h : (Piece.expr e (p.fresh 0)).Simulated E m answers depth call σ (p.skip 1) code σ' p') :
    (Piece.spill e slot).Simulated E m answers depth call σ p (code ++ spillCode (p.fresh 0) slot) σ' p' := by
  intro hroom rest s ws hs
  obtain ⟨hslot, hlt⟩ := hroom.targets slot (by simp)
  rw [List.append_assoc] at hs
  refine .and_then (h (hroom.fresh (by simp) hroom.current) hs) ?_
  rintro v ws₁ t₁ ⟨ht₁, hk₁, hv⟩
  have hne : Operand.reg (p.fresh 0) ≠ .reg slot := by
    rintro ⟨⟩
    simp at hlt
  obtain ⟨u, t, hu, ht, hready, hk, hres⟩ := ht₁.allocate hslot (hv.read t₁.top.todo) hne
  exact .of_step (hu _) (.of_step (ht _) (.done ⟨hready, (hk₁.below (by simp) (by simp)).trans (hk _), hres⟩))

theorem operand_simulated (e₁ : Emits abi known (.expr e (p.fresh 0)) σ (p.skip 1) c₁ σ₁ p₁)
    (h₁ : (Piece.expr e (p.fresh 0)).Simulated E m answers depth call σ (p.skip 1) c₁ σ₁ p₁)
    (h₂ : (Piece.operands es rs).Simulated E m answers depth call σ₁ p₁ c₂ σ₂ p₂) :
    (Piece.operands (e :: es) (p.fresh 0 :: rs)).Simulated E m answers depth call σ p (c₁ ++ c₂) σ₂ p₂ := by
  intro hroom rest s ws hs
  have hreg₁ := e₁.before.reg
  rw [Point.skip_reg] at hreg₁
  rw [List.append_assoc] at hs
  refine .bind (h₁ (hroom.fresh (by simp) hroom.current) hs) ?_
  rintro v ws₁ t₁ ⟨ht₁, hk₁, hv⟩
  refine .bind (h₂ (hroom.after (by omega) (e₁.current_lt hroom.current)) ht₁) ?_
  rintro vs ws₂ t₂ ⟨ht₂, hk₂, hvs⟩
  refine .done ⟨ht₂, (hk₁.below (by simp) (by simp)).trans (hk₂.mono (by omega)), ?_⟩
  exact .cons (hv.keep hk₂ (by simp; omega) (by simp)) hvs

theorem user_simulated {c : Call} {span : Span} (hcalls : CallsRealized m answers E.abi known depth call)
    (hop : Builtin.ofHead? c.head = none) (hknown : known c.head c.args.length)
    (hlen : rs.length = c.args.length)
    (h : (Piece.operands c.args rs).Simulated E m answers depth call σ p code σ' p') :
    (Piece.expr (.call c span) r).Simulated E m answers depth call σ p
      (code ++ [.instr (.call r c.head (rs.map .reg))]) σ' p' := by
  intro hroom rest s ws hs
  have hr := (hroom.targets r (by simp)).1
  have hmeaning : (Expr.call c span).meaning answers call E.vars =
      Run.inOrder (c.args.map (Expr.meaning answers call E.vars)) >>= call c.head := Call.meaning_user hop
  rw [hmeaning]
  rw [List.append_assoc] at hs
  refine .bind (h ⟨hroom.slots, hroom.current, by simp⟩ hs) ?_
  rintro vs ws₁ t₁ ⟨ht₁, hk₁, hvs⟩
  rw [← hlen, hvs.length_eq] at hknown
  refine (hcalls hknown ht₁.todo (read_results hvs) ht₁.trace).mono ?_
  rintro v ws₂ t ⟨memory, trace, hmem, htrace, rfl⟩
  refine ⟨ht₁.after rfl (fun r' hr' => if_neg ?_) hmem htrace, hk₁.trans ⟨rfl, hmem, ?_⟩, if_pos rfl⟩
  · rintro rfl
    omega
  · intro r' _ hn
    exact if_neg (by simpa using hn)

theorem more_simulated (hes : es ≠ []) (e₁ : Emits abi known (.expr e (p.fresh 0)) σ (p.skip 1) c₁ σ₁ p₁)
    (h₁ : (Piece.expr e (p.fresh 0)).Simulated E m answers depth call σ (p.skip 1) c₁ σ₁ p₁)
    (h₂ : (Piece.body es r).Simulated E m answers depth call σ₁ p₁ c₂ σ₂ p₂) :
    (Piece.body (e :: es) r).Simulated E m answers depth call σ p (c₁ ++ c₂) σ₂ p₂ := by
  intro hroom rest s ws hs
  have hreg₁ := e₁.before.reg
  rw [Point.skip_reg] at hreg₁
  obtain ⟨hr, hlt⟩ := hroom.targets r (by simp)
  have hlast : Run.last ((e :: es).map (Expr.meaning answers call E.vars)) =
      e.meaning answers call E.vars >>= fun _ => Run.last (es.map (Expr.meaning answers call E.vars)) := by
    cases es with
    | nil => exact absurd rfl hes
    | cons => rfl
  rw [hlast]
  rw [List.append_assoc] at hs
  refine .bind (h₁ (hroom.fresh (by simp) hroom.current) hs) ?_
  rintro v ws₁ t₁ ⟨ht₁, hk₁, -⟩
  have hroom₂ : E.Room [r] p₁ :=
    ⟨by have := hroom.slots; omega, e₁.current_lt hroom.current, by simp; omega⟩
  refine (h₂ hroom₂ ht₁).mono ?_
  rintro v ws₂ t₂ ⟨ht₂, hk₂, hv⟩
  exact ⟨ht₂, (hk₁.below (by simp) (by simp)).trans (hk₂.mono (by omega)), hv⟩

end Sequences

/-! ## Control flow -/

section Branches
variable {test : Call} {span : Span} {op : CompareOp} {x y yes no : Expr} {r : Reg}

/-- A conditional on a comparison. -/
theorem meaning_conditional {vars : String → Option Int64} (hop : Builtin.ofHead? test.head = some (.compare op))
    (hargs : test.args = [x, y]) (no : Option Expr) :
    (Expr.branch test yes no span).meaning answers call vars =
      Run.compare op [x.meaning answers call vars, y.meaning answers call vars] >>= fun b =>
        if b then yes.meaning answers call vars
        else match no with
          | some e => e.meaning answers call vars
          | none => pure 0 := by
  rw [Expr.meaning_branch, hargs, Run.conditional, hop]
  rfl

theorem branch_simulated (hop : Builtin.ofHead? test.head = some (.compare op)) (hargs : test.args = [x, y])
    (e₁ : Emits abi known (.test op x y (p.fresh 0)) σ (p.skip 1) c₁ σ₁ p₁)
    (e₂ : Emits abi known (.expr yes (p₁.fresh 0)) σ₁ ((p₁.branch 2).skip 1) c₂ σ₂ p₂)
    (h₁ : (Piece.test op x y (p.fresh 0)).Simulated E m answers depth call σ (p.skip 1) c₁ σ₁ p₁)
    (h₂ : (Piece.expr yes (p₁.fresh 0)).Simulated E m answers depth call σ₁
      ((p₁.branch 2).skip 1) c₂ σ₂ p₂) :
    (Piece.expr (.branch test yes none span) r).Simulated E m answers depth call σ p
      (c₁ ++ .next (.condBr (p.fresh 0) (p₁.newBlock 0) (p₁.newBlock 1)) (p₁.newBlock 0)
        ("if.then." ++ toString p₁.label) ::
        (c₂ ++ [.next (.br (p₁.newBlock 1)) (p₁.newBlock 1) ("if.end." ++ toString p₁.label),
          .instr (.phi r [(.reg (p₁.fresh 0), p₂.current), (.const 0, p₁.current)])]))
      σ₂ (p₂.goto (p₁.newBlock 1)) := by
  intro hroom rest s ws hs
  have hr := (hroom.targets r (by simp)).1
  have hreg₁ := e₁.before.reg
  have hcur₁ := e₁.current_lt hroom.current
  have hcur₂ := e₂.current_eq_or
  rw [Point.skip_reg] at hreg₁
  simp only [List.append_assoc, List.cons_append, List.nil_append] at hs
  rw [meaning_conditional hop hargs]
  refine .bind (h₁ (hroom.fresh (by simp) hroom.current) hs) ?_
  rintro b ws₁ t₁ ⟨ht₁, hk₁, hb⟩
  have hk₁ := hk₁.below (show p.reg ≤ (p.skip 1).reg by simp) (by simp)
  cases b with
  | true =>
    obtain ⟨t₂, hstep₂, ht₂, hk₂, -⟩ :=
      ht₁.condBr (m := m) hb (ht₁.hasBlock [])
    have hroom₂ : E.Room [p₁.fresh 0] ((p₁.branch 2).skip 1) :=
      (hroom.after (q := p₁) (by omega) hcur₁).fresh (by simp) (by simp)
    refine .of_step (hstep₂ _) (.and_then (h₂ hroom₂ ht₂) ?_)
    rintro v ws₃ t₃ ⟨ht₃, hk₃, hv⟩
    obtain ⟨t₄, hstep₄, ht₄, hk₄, hprev⟩ := ht₃.br (m := m) (ht₃.hasBlock [])
    have hv := (hv.keep (hk₄ _) (Nat.lt_succ_self _) (by simp)).read rest.instrs
    obtain ⟨t₅, hstep₅, ht₅, hk₅, hres⟩ := ht₄.phi (m := m) hr hprev
      (by simp) hv
    refine .of_step (hstep₄ _) (.of_step (hstep₅ _) (.done ⟨ht₅, ?_, hres⟩))
    have hk := (hk₁.trans (hk₂ _)).trans (hk₃.below (by simp; omega) (by simp; omega))
    exact (hk.trans (hk₄ _)).trans (hk₅ _)
  | false =>
    obtain ⟨t₂, hstep₂, ht₂, hk₂, hprev⟩ :=
      ht₁.condBr (m := m) hb (ht₁.hasBlock (.next _ _ _ :: c₂))
    have hne : p₁.current ≠ p₂.current := by
      intro he
      rw [← he] at hcur₂
      rcases hcur₂ with hc | hc
      · rw [hc] at hcur₁
        simp at hcur₁
      · simp at hc
        omega
    obtain ⟨t₃, hstep₃, ht₃, hk₃, hres⟩ := ht₂.phi (m := m) hr hprev
      (by simp [hne]; rfl) rfl
    refine .of_step (hstep₂ _) (.of_step (hstep₃ _)
      (.done ⟨ht₃.scope fun _ _ => e₂.slot_of_slot, ?_, hres⟩))
    exact (hk₁.trans (hk₂ _)).trans (hk₃ _)

theorem branchElse_simulated (hop : Builtin.ofHead? test.head = some (.compare op)) (hargs : test.args = [x, y])
    (e₁ : Emits abi known (.test op x y (p.fresh 0)) σ (p.skip 1) c₁ σ₁ p₁)
    (e₂ : Emits abi known (.expr yes (p₁.fresh 0)) σ₁ ((p₁.branch 3).skip 1) c₂ σ₂ p₂)
    (e₃ : Emits abi known (.expr no (p₂.fresh 0)) σ₂ ((p₂.goto (p₁.newBlock 1)).skip 1) c₃ σ₃ p₃)
    (h₁ : (Piece.test op x y (p.fresh 0)).Simulated E m answers depth call σ (p.skip 1) c₁ σ₁ p₁)
    (h₂ : (Piece.expr yes (p₁.fresh 0)).Simulated E m answers depth call σ₁
      ((p₁.branch 3).skip 1) c₂ σ₂ p₂)
    (h₃ : (Piece.expr no (p₂.fresh 0)).Simulated E m answers depth call σ₂ ((p₂.goto (p₁.newBlock 1)).skip 1)
      c₃ σ₃ p₃) :
    (Piece.expr (.branch test yes (some no) span) r).Simulated E m answers depth call σ p
      (c₁ ++ .next (.condBr (p.fresh 0) (p₁.newBlock 0) (p₁.newBlock 1)) (p₁.newBlock 0)
        ("if.then." ++ toString p₁.label) ::
        (c₂ ++ .next (.br (p₁.newBlock 2)) (p₁.newBlock 1) ("if.else." ++ toString p₁.label) ::
          (c₃ ++ [.next (.br (p₁.newBlock 2)) (p₁.newBlock 2) ("if.end." ++ toString p₁.label),
            .instr (.phi r [(.reg (p₁.fresh 0), p₂.current), (.reg (p₂.fresh 0), p₃.current)])])))
      σ₃ (p₃.goto (p₁.newBlock 2)) := by
  intro hroom rest s ws hs
  have hr := (hroom.targets r (by simp)).1
  have hreg₁ := e₁.before.reg
  have hreg₂ := e₂.before.reg
  have hblock₂ := e₂.before.block
  have hcur₁ := e₁.current_lt hroom.current
  have hcur₂ := e₂.current_eq_or
  have hlt₂ := e₂.current_lt (by simp)
  have hcur₃ := e₃.current_eq_or
  simp only [Point.skip_reg, Point.skip_block, Point.branch_reg, Point.branch_block] at hreg₁ hreg₂ hblock₂
  simp only [List.append_assoc, List.cons_append, List.nil_append] at hs
  rw [meaning_conditional hop hargs]
  refine .bind (h₁ (hroom.fresh (by simp) hroom.current) hs) ?_
  rintro b ws₁ t₁ ⟨ht₁, hk₁, hb⟩
  have hk₁ := hk₁.below (show p.reg ≤ (p.skip 1).reg by simp) (by simp)
  have hroom₁ : E.Room [] p₁ := hroom.after (by omega) hcur₁
  cases b with
  | true =>
    obtain ⟨t₂, hstep₂, ht₂, hk₂, -⟩ := ht₁.condBr (m := m) hb (ht₁.hasBlock [])
    refine .of_step (hstep₂ _) (.and_then (h₂ (hroom₁.fresh (by simp) (by simp)) ht₂) ?_)
    rintro v ws₃ t₃ ⟨ht₃, hk₃, hv⟩
    obtain ⟨t₄, hstep₄, ht₄, hk₄, hprev⟩ := ht₃.br (m := m) (ht₃.hasBlock (.next _ _ _ :: c₃))
    have hv := (hv.keep (hk₄ _) (Nat.lt_succ_self _) (by simp)).read rest.instrs
    obtain ⟨t₅, hstep₅, ht₅, hk₅, hres⟩ := ht₄.phi (m := m) hr hprev (by simp) hv
    refine .of_step (hstep₄ _) (.of_step (hstep₅ _)
      (.done ⟨ht₅.scope fun _ _ => e₃.slot_of_slot, ?_, hres⟩))
    have hk := (hk₁.trans (hk₂ _)).trans (hk₃.below (by simp; omega) (by simp; omega))
    exact (hk.trans (hk₄ _)).trans (hk₅ _)
  | false =>
    obtain ⟨t₂, hstep₂, ht₂, hk₂, -⟩ := ht₁.condBr (m := m) hb (ht₁.hasBlock (.next _ _ _ :: c₂))
    have hroom₃ : E.Room [p₂.fresh 0] ((p₂.goto (p₁.newBlock 1)).skip 1) := by
      refine (hroom₁.after (q := p₂) (by omega) hlt₂).fresh (by simp) ?_
      simp
      omega
    have ht₂ := ht₂.scope fun _ _ => e₂.slot_of_slot
    refine .of_step (hstep₂ _) (.and_then (h₃ hroom₃ ht₂) ?_)
    rintro v ws₃ t₃ ⟨ht₃, hk₃, hv⟩
    obtain ⟨t₄, hstep₄, ht₄, hk₄, hprev⟩ := ht₃.br (m := m) (ht₃.hasBlock [])
    have hv := (hv.keep (hk₄ _) (Nat.lt_succ_self _) (by simp)).read rest.instrs
    have hne : p₃.current ≠ p₂.current := by
      intro he
      rw [he] at hcur₃
      simp at hcur₂ hcur₃
      rcases hcur₂ with hc₂ | hc₂ <;> rcases hcur₃ with hc₃ | hc₃
      · simp [hc₂] at hc₃
      · simp [hc₂] at hc₃
        omega
      · simp [hc₃] at hc₂
      · omega
    obtain ⟨t₅, hstep₅, ht₅, hk₅, hres⟩ := ht₄.phi (m := m) hr hprev (by simp [hne]) hv
    refine .of_step (hstep₄ _) (.of_step (hstep₅ _) (.done ⟨ht₅, ?_, hres⟩))
    have hk := (hk₁.trans (hk₂ _)).trans (hk₃.below (by simp; omega) (by simp; omega))
    exact (hk.trans (hk₄ _)).trans (hk₅ _)

end Branches

section Writes
variable {r fd buffer length : Reg} {v u n : Int64}

variable (answers) in
/-- One step into the kernel with a value in a slot. -/
theorem asm_step {E : Setting} {id : BlockId} {c : Code} {s : State} {ws : List Write} {address : Reg} {i : Nat}
    (hs : E.Ready σ id (.instr (.asm r E.abi.template E.abi.constraints
      [.const E.abi.writeNumber, .reg fd, .reg address, .reg length]) :: c) s ws) (hr : E.slots < r.index)
    (hfd : HoldsInt fd v s) (haddress : HoldsInt address (.ofNat i) s) (hvalue : s.memory[i]? = some u)
    (hlength : HoldsInt length n s) :
    ∃ t, m.step (answers s.trace.length) s = .running t ∧
      E.Ready σ id c t (ws ++ [⟨v, u, n, answers ws.length⟩]) ∧ (∀ limit, Keeps s t limit [r]) ∧
      HoldsInt r (answers ws.length) t := by
  have hfd := hfd.read c.instrs
  have haddress := haddress.read c.instrs
  have hlength := hlength.read c.instrs
  have hcount : s.trace.length = ws.length := hs.trace.length_eq
  let entry : KernelCall := ⟨E.abi.template, E.abi.constraints, [E.abi.writeNumber, v, .ofNat i, n], s.memory,
    answers ws.length⟩
  refine ⟨{ s with
    top := { s.top with todo := c.instrs }.set r (.int (answers ws.length))
    trace := s.trace ++ [entry] }, ?_, ?_, ?_, ?_⟩
  · have hread : [.const E.abi.writeNumber, .reg fd, .reg address, .reg length].mapM
        { s.top with todo := c.instrs }.read = some [E.abi.writeNumber, v, .ofNat i, n] := by
      rw [List.mapM_cons, List.mapM_cons, hfd, List.mapM_cons, haddress, List.mapM_cons, hlength]
      rfl
    rw [IR.Module.step, hs.todo, hcount]
    simp only [Code.instrs, Instr.run, hread]
    rfl
  · refine hs.after rfl (fun r' hr' => if_neg ?_) (List.prefix_refl _) ?_
    · rintro rfl
      omega
    · refine List.rel_append hs.trace (.cons ?_ .nil)
      exact ⟨rfl, rfl, ⟨i, rfl, hvalue⟩, rfl⟩
  · exact fun _ => ⟨rfl, List.prefix_refl _, fun r' _ hn => if_neg (by simpa using hn)⟩
  · unfold HoldsInt
    exact if_pos rfl

/-- The choice between zero and what the kernel answered. -/
theorem choice_realized {E : Setting} {id ok fail done : BlockId} {l₁ l₂ l₃ : String} {c : Code} {s : State}
    {ws : List Write} {flag : Reg} {b : Bool} (hs : E.Ready σ id (.next (.condBr flag ok fail) ok l₁ ::
      .next (.br done) fail l₂ :: .next (.br done) done l₃ ::
      .instr (.phi r [(.const 0, ok), (.reg fd, fail)]) :: c) s ws) (hne : ok ≠ fail) (hr : E.slots < r.index)
    (hflag : s.top.regs flag = some (.bit b)) (hfd : HoldsInt fd v s) :
    Realizes m answers depth s (.ok (if b then 0 else v, ws)) fun v ws' t =>
      E.Ready σ done c t ws' ∧ (∀ limit, Keeps s t limit [r]) ∧ HoldsInt r v t := by
  have hjoin : E.HasBlock done _ := hs.hasBlock [_, _]
  cases b with
  | true =>
    obtain ⟨t₁, hstep₁, ht₁, hk₁, -⟩ := hs.condBr (m := m) hflag (hs.hasBlock [])
    obtain ⟨t₂, hstep₂, ht₂, hk₂, hprev⟩ := ht₁.br (m := m) hjoin
    obtain ⟨t₃, hstep₃, ht₃, hk₃, hres⟩ := ht₂.phi (m := m) hr hprev (by simp; rfl) rfl
    refine .of_step (hstep₁ _) (.of_step (hstep₂ _)
      (.of_step (hstep₃ _) (.done ⟨ht₃, fun limit => ?_, hres⟩)))
    exact ((hk₁ limit).trans (hk₂ limit)).trans (hk₃ limit)
  | false =>
    obtain ⟨t₁, hstep₁, ht₁, hk₁, -⟩ := hs.condBr (m := m) hflag (hs.hasBlock [_])
    obtain ⟨t₂, hstep₂, ht₂, hk₂, hprev⟩ := ht₁.br (m := m) hjoin
    have hfd₂ := (hfd.keep (hk₁ _) (Nat.lt_succ_self _) (by simp)).keep (hk₂ _) (Nat.lt_succ_self _) (by simp)
    obtain ⟨t₃, hstep₃, ht₃, hk₃, hres⟩ :=
      ht₂.phi (m := m) hr hprev (by simp [hne.symm]) (hfd₂.read c.instrs)
    refine .of_step (hstep₁ _) (.of_step (hstep₂ _)
      (.of_step (hstep₃ _) (.done ⟨ht₃, fun limit => ?_, hres⟩)))
    exact ((hk₁ limit).trans (hk₂ limit)).trans (hk₃ limit)

theorem writeCode_realized {rest : Code} {s : State} {ws : List Write}
    (hs : E.Ready σ p.current (writeCode E.abi fd buffer length r p ++ rest) s ws) (hslots : E.slots < p.reg)
    (hr : E.slots < r.index) (hfd : HoldsInt fd v s) (hbuffer : HoldsSlot buffer u s)
    (hlength : HoldsInt length n s) (hfdlt : fd.index < p.reg) (hlengthlt : length.index < p.reg) :
    Realizes m answers depth s (.ok (if answers ws.length = n then 0 else answers ws.length,
        ws ++ [⟨v, u, n, answers ws.length⟩])) fun w ws' t =>
      E.Ready σ (p.newBlock 2) rest t ws' ∧ Keeps s t p.reg [r] ∧ HoldsInt r w t := by
  have hfresh : ∀ i, E.slots < (p.fresh i).index := fun i => Nat.lt_of_lt_of_le hslots (Nat.le_add_right _ i)
  have hne : ∀ {q : Reg}, q.index < p.reg → ∀ i, q ∉ [p.fresh i] := by
    intro q hq i hm
    rw [List.mem_singleton.mp hm, Point.fresh_index] at hq
    omega
  obtain ⟨i, hi, hmem⟩ := hbuffer
  obtain ⟨t₁, hstep₁, ht₁, hk₁, haddress⟩ := hs.put (m := m) (v := .int (.ofNat i)) (hfresh 0)
    (fun _ => by simp [Instr.run, hi])
  have hfd₁ := hfd.keep (hk₁ p.reg) hfdlt (hne hfdlt 0)
  have hlength₁ := hlength.keep (hk₁ p.reg) hlengthlt (hne hlengthlt 0)
  obtain ⟨t₂, hstep₂, ht₂, hk₂, hanswer⟩ :=
    asm_step (m := m) answers ht₁ (hfresh 1) hfd₁ haddress ((hk₁ p.reg).memory_eq hmem) hlength₁
  have hlength₂ := (hlength₁.keep (hk₂ p.reg) hlengthlt (hne hlengthlt 1)).read
  have hanswer₂ := hanswer.read
  obtain ⟨t₃, hstep₃, ht₃, hk₃, hflag⟩ := ht₂.put (m := m) (v := .bit (answers ws.length == n)) (hfresh 2)
    (fun _ => by simp [Instr.run, hlength₂, hanswer₂, IR.Pred.holds])
  have hanswer₃ := hanswer.keep (hk₃ (p.reg + 2)) (by simp) (by simp)
  have hvalue : (if answers ws.length = n then 0 else answers ws.length) =
      if answers ws.length == n then 0 else answers ws.length := by simp
  rw [hvalue]
  refine .of_step (hstep₁ _) (.of_step hstep₂ (.of_step (hstep₃ _) ?_))
  refine (choice_realized ht₃ (by simp) hr hflag hanswer₃).mono ?_
  rintro w ws' t ⟨ht, hk, hw⟩
  have hk₁₂ := ((hk₁ p.reg).below (Nat.le_refl _) (by simp)).trans ((hk₂ p.reg).below (Nat.le_refl _) (by simp))
  exact ⟨ht, (hk₁₂.trans ((hk₃ p.reg).below (Nat.le_refl _) (by simp))).trans (hk _), hw⟩

theorem write_simulated {c : Call} {span sr : Span} {eFd e eLength : Expr}
    (hop : Builtin.ofHead? c.head = some .sysWrite) (hargs : c.args = [eFd, .ref e sr, eLength])
    (e₁ : Emits abi known (.expr eFd (p.fresh 0)) σ (p.skip 3) c₁ σ₁ p₁)
    (e₂ : Emits abi known (.spill e (p.fresh 1)) σ₁ p₁ c₂ σ₂ p₂)
    (e₃ : Emits abi known (.expr eLength (p.fresh 2)) σ₂ p₂ c₃ σ₃ p₃)
    (h₁ : (Piece.expr eFd (p.fresh 0)).Simulated E m answers depth call σ (p.skip 3) c₁ σ₁ p₁)
    (h₂ : (Piece.spill e (p.fresh 1)).Simulated E m answers depth call σ₁ p₁ c₂ σ₂ p₂)
    (h₃ : (Piece.expr eLength (p.fresh 2)).Simulated E m answers depth call σ₂ p₂ c₃ σ₃ p₃) :
    (Piece.expr (.call c span) r).Simulated E m answers depth call σ p
      (c₁ ++ (c₂ ++ (c₃ ++ writeCode E.abi (p.fresh 0) (p.fresh 1) (p.fresh 2) r p₃)))
      σ₃ (((p₃.skip 3).branch 3).goto (p₃.newBlock 2)) := by
  intro hroom rest s ws hs
  have hr := (hroom.targets r (by simp)).1
  have hslots := hroom.slots
  have hreg₁ := e₁.before.reg
  have hreg₂ := e₂.before.reg
  have hreg₃ := e₃.before.reg
  have hcur₁ := e₁.current_lt hroom.current
  have hcur₂ := e₂.current_lt hcur₁
  rw [Point.skip_reg] at hreg₁
  simp only [List.append_assoc] at hs
  have hmeaning : (Expr.call c span).meaning answers call E.vars = Run.write answers
      (eFd.meaning answers call E.vars) (e.meaning answers call E.vars) (eLength.meaning answers call E.vars) :=
    Call.meaning_write hop hargs
  rw [hmeaning]
  refine .bind (h₁ (hroom.fresh (by simp) hroom.current) hs) ?_
  rintro v ws₁ t₁ ⟨ht₁, hk₁, hv⟩
  refine .bind (h₂ (hroom.fresh (by omega) hcur₁) ht₁) ?_
  rintro u ws₂ t₂ ⟨ht₂, hk₂, hu⟩
  refine .bind (h₃ (hroom.fresh (by omega) hcur₂) ht₂) ?_
  rintro n ws₃ t₃ ⟨ht₃, hk₃, hn⟩
  have hv₂ := hv.keep hk₂ (by simp; omega) (by simp)
  have hv₃ := hv₂.keep hk₃ (by simp; omega) (by simp)
  have hu₃ := hu.keep hk₃ (by simp; omega) (by simp)
  refine (writeCode_realized ht₃ (by omega) hr hv₃ hu₃ hn (by simp; omega) (by simp; omega)).mono ?_
  rintro w ws₄ t₄ ⟨ht₄, hk₄, hw⟩
  have hk := (hk₁.below (show p.reg ≤ (p.skip 3).reg by simp) (by simp)).trans (hk₂.below (by omega) (by simp))
  exact ⟨ht₄, (hk.trans (hk₃.below (by omega) (by simp))).trans (hk₄.mono (by omega)), hw⟩

end Writes

/-- Code that is emitted for a piece realizes its meaning. -/
theorem Emits.simulated (hcalls : CallsRealized m answers E.abi known depth call)
    (h : Emits E.abi known piece σ p code σ' p') :
    piece.Simulated E m answers depth call σ p code σ' p' := by
  induction h with
  | int v s r σ p => exact constant_simulated v r
  | name hx s r p => exact name_simulated hx s
  | define d s r σ p => exact define_simulated d s r
  | arith hop ht h ih => exact arith_simulated hop ht ih
  | compare hop hargs h ih => exact compare_simulated hop hargs ih
  | write hop hargs h₁ h₂ h₃ ih₁ ih₂ ih₃ => exact write_simulated hop hargs h₁ h₂ h₃ ih₁ ih₂ ih₃
  | user hop hσ hknown h ih => exact user_simulated hcalls hop hknown h.length_operands ih
  | branch hop hargs h₁ h₂ ih₁ ih₂ => exact branch_simulated hop hargs h₁ h₂ ih₁ ih₂
  | branchElse hop hargs h₁ h₂ h₃ ih₁ ih₂ ih₃ =>
    exact branchElse_simulated hop hargs h₁ h₂ h₃ ih₁ ih₂ ih₃
  | spill h ih => exact spill_simulated ih
  | leaf h ih => exact ih
  | node h₁ h₂ ih₁ ih₂ => exact node_simulated h₁ ih₁ ih₂
  | test h₁ h₂ ih₁ ih₂ => exact test_simulated h₁ ih₁ ih₂
  | noOperands σ p =>
    intro _ rest s ws hs
    exact .done ⟨hs, .refl _ _ _, .nil⟩
  | operand h₁ h₂ ih₁ ih₂ => exact operand_simulated h₁ ih₁ ih₂
  | result h ih => exact ih
  | more hes h₁ h₂ ih₁ ih₂ => exact more_simulated hes h₁ ih₁ ih₂

end Pieces
end SmallLisp
