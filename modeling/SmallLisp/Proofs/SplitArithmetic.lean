import SmallLisp.Proofs.SplitFold
import SmallLisp.Proofs.ArgumentCode
import SmallLisp.Proofs.Reference

/-! # Split arithmetic folds from the left

The compiler cuts a call of an operation on many operands into a tree of binary operations, some of them
another operation than the call's. What runs is nevertheless the fold from the left over the values of the
arguments: they are evaluated in their order and no more than once, and the program traps at the zero divisor
that the fold meets. A run that evaluates the arguments of a tree is put together from the runs of its sides.
-/
namespace SmallLisp
open IR (Reg BlockId Operand Instr Code State Layout Place)

theorem Run.ok_of_inOrder_append {xs ys : List (Run Int64)} {ws ws₂ : List Write} {vs us : List Int64}
    (hlen : vs.length = xs.length) (h : inOrder (xs ++ ys) ws = .ok (vs ++ us, ws₂)) :
    ∃ ws₁, inOrder xs ws = .ok (vs, ws₁) ∧ inOrder ys ws₁ = .ok (us, ws₂) := by
  induction xs generalizing vs ws with
  | nil =>
    rw [List.length_eq_zero_iff.mp hlen] at h ⊢
    exact ⟨ws, rfl, h⟩
  | cons x xs ih =>
    obtain ⟨v, vs, rfl⟩ := List.exists_cons_of_length_eq_add_one hlen
    obtain ⟨ws₁, hx, h⟩ := ok_of_inOrder_cons h
    obtain ⟨ws₂, hxs, hys⟩ := ih (Nat.succ.inj hlen) h
    exact ⟨ws₂, inOrder_cons_of_ok hx hxs, hys⟩

/-- A run that evaluates arguments: it comes to the places where they begin, and in the end their registers
hold their values. -/
structure Gathers (m : IR.Module) (answers : Nat → Int64) (s : State) (n : Nat) (t : State)
    (places : List Place) (results : List Reg) (values : List Int64) : Prop where
  run : m.run answers n s = .running t
  callers : t.callers = s.callers
  places : ∀ x ∈ places, x ∈ m.path answers s.callers.length n s
  values : List.Forall₂ (fun r v => HoldsInt r v t) results values

section Evaluation
variable {E : Setting} {m : IR.Module} {answers : Nat → Int64} {depth : Nat} {known : String → Nat → Prop}
  {call : String → List Int64 → Run Int64} {σ σ' : Scope Storage} {p p' : Point} {r : Reg}
  {args : List Argument} {s t u : State} {n k : Nat}

theorem Gathers.trans {places places' : List Place} {results results' : List Reg} {values values' : List Int64}
    (h : Gathers m answers s n t places results values) (h' : Gathers m answers t k u places' results' values')
    (hkeep : ∀ r ∈ results, ∀ v, HoldsInt r v t → HoldsInt r v u) :
    Gathers m answers s (n + k) u (places ++ places') (results ++ results') (values ++ values') where
  run := (IR.Module.run_add h.run k).trans h'.run
  callers := h'.callers.trans h.callers
  places := by
    rw [IR.path_add h.run]
    have hplaces := h'.places
    rw [h.callers] at hplaces
    exact List.forall_mem_append.mpr ⟨fun x hx => List.mem_append_left _ (h.places x hx),
      fun x hx => List.mem_append_right _ (hplaces x hx)⟩
  values := by
    refine List.rel_append ?_ h'.values
    obtain ⟨hlen, hholds⟩ := List.forall₂_iff_zip.mp h.values
    exact List.forall₂_iff_zip.mpr ⟨hlen, fun hm => hkeep _ (List.of_mem_zip hm).1 _ (hholds hm)⟩

theorem Gathers.step {places : List Place} {results : List Reg} {values : List Int64}
    (h : Gathers m answers s n t places results values) (hstep : m.step (answers t.trace.length) t = .running u)
    (hcallers : u.callers = t.callers) (hkeep : ∀ r ∈ results, ∀ v, HoldsInt r v t → HoldsInt r v u) :
    Gathers m answers s (n + 1) u places results values := by
  have hone : Gathers m answers t 1 u [] [] [] := by
    refine ⟨?_, hcallers, nofun, .nil⟩
    rw [IR.Module.run_succ, hstep]
    rfl
  simpa using h.trans hone hkeep

/-- All of the arguments are as many of them as there are. -/
theorem Gathers.take_length {rest : Code} {id : BlockId} {values : List Int64}
    (h : Gathers m answers s n t (Argument.beginnings rest id args) (args.map (·.result)) values) :
    Gathers m answers s n t ((Argument.beginnings rest id args).take args.length)
      ((args.map (·.result)).take args.length) (values.take args.length) := by
  have hvalues : values.length = args.length := by simpa using h.values.length_eq.symm
  rwa [List.take_of_length_le (by simp), List.take_of_length_le (by simp), List.take_of_length_le (by omega)]

variable (E m answers) in
/-- What running the code of arguments comes to, from a block `id` to the place before `rest`. Where there is a
value, all of them are gathered and a register holds the value. Otherwise the run traps with the first `k` of
them gathered, before the others begin. -/
def Settles (args : List Argument) (values : List Int64) (r : Reg) (id : BlockId) (limit : Nat)
    (σ' : Scope Storage) (p' : Point) (rest : Code) (s : State) (ws' : List Write) : Except Nat Int64 → Prop
  | .ok w => ∃ n u,
      Gathers m answers s n u (Argument.beginnings rest id args) (args.map (·.result)) values ∧
      E.Ready σ' p'.current rest u ws' ∧ Keeps s u limit [r] ∧ HoldsInt r w u
  | .error k => ∃ n u d,
      Gathers m answers s n u ((Argument.beginnings rest id args).take k) ((args.map (·.result)).take k)
        (values.take k) ∧ Keeps s u limit [] ∧
      m.step (answers u.trace.length) u = .trapped ∧ E.Stands d u.top ∧ rest.length < d.length ∧
      k ≤ args.length ∧
      ∀ x ∈ (Argument.beginnings rest id args).drop k, ∃ e, E.Marks e x ∧ e.length < d.length

/-- An argument by itself is gathered when its code has run. -/
theorem argument_settles (hcalls : CallsRealized m answers E.abi known depth call) {e : Expr} {code rest : Code}
    {ws ws' : List Write} {v : Int64} (h : Emits E.abi known (.expr e r) σ p code σ' p') (hroom : E.Room [r] p)
    (hs : E.Ready σ p.current (code ++ rest) s ws) (hv : e.meaning answers call E.vars ws = .ok (v, ws')) :
    Settles E m answers [⟨r, code, []⟩] [v] r p.current p.reg σ' p' rest s ws' (.ok v) := by
  have hsim : E.Simulates m answers depth [r] σ p code σ' p' (e.meaning answers call E.vars) (HoldsInt r) :=
    h.simulated hcalls
  have hrun := hsim hroom hs
  rw [hv] at hrun
  obtain ⟨n, u, hn, hu, hk, hr⟩ := hrun
  refine ⟨n, u, ⟨hn, hk.callers, ?_, .cons hr .nil⟩, hu, hk, hr⟩
  have hpos : n ≠ 0 := by
    rintro rfl
    cases hn
    have hcode := hs.stands.place.unique hu.stands.place
    exact h.code_ne_nil (List.append_left_eq_self.mp hcode)
  have hplace : s.top.place = (p.current, IR.Code.instrs (code ++ rest)) := Prod.ext hs.block hs.todo
  simpa [Argument.beginnings, Argument.line, ← hplace] using IR.place_mem_path hpos

section Nodes
variable {as bs : List Argument} {b : Argument} {i : Instr} {vs us : List Int64} {σ₁ σ₂ : Scope Storage}
  {p₁ p₂ : Point} {r₁ r₂ : Reg} {id id₁ : BlockId} {limit limit₁ : Nat} {rest : Code}
  {ws₁ ws₂ : List Write}

theorem beginnings_node : Argument.beginnings rest id (as ++ (bs ++ [b.followed i])) =
    Argument.beginnings (Argument.lines (bs ++ [b]) ++ .instr i :: rest) id as ++
      Argument.beginnings (.instr i :: rest) ((Argument.lines as).last id) (bs ++ [b]) := by
  rw [Argument.beginnings_append, Argument.beginnings_followed]
  simp

theorem map_result_node : (as ++ (bs ++ [b.followed i])).map (·.result) =
    as.map (·.result) ++ (bs ++ [b]).map (·.result) := by
  simp [Argument.followed]

/-- A zero divisor under the left operand. -/
theorem settles_of_left_error (hcode : ∃ before, E.code = before ++ (Argument.lines as ++
      (Argument.lines (bs ++ [b]) ++ .instr i :: rest)) ∧ before.last ⟨0⟩ = id) (hvs : vs.length = as.length)
    (hlimit : limit ≤ limit₁) (h : Settles E m answers as vs r₁ id limit₁ σ₁ p₁
      (Argument.lines (bs ++ [b]) ++ .instr i :: rest) s ws₁ (.error k)) :
    Settles E m answers (as ++ (bs ++ [b.followed i])) (vs ++ us) r id limit σ₂ p₂ rest s ws₂ (.error k) := by
  obtain ⟨n, u, d, hg, hkeeps, htrap, hd, hlt, hk, hlater⟩ := h
  refine ⟨n, u, d, ?_, hkeeps.mono hlimit, htrap, hd, ?_, ?_, ?_⟩
  · rw [beginnings_node, map_result_node, List.take_append_of_le_length (by simpa using hk),
      List.take_append_of_le_length (by simpa using hk), List.take_append_of_le_length (by omega)]
    exact hg
  · simp at hlt
    omega
  · simp
    omega
  · rw [beginnings_node, List.drop_append_of_le_length (by simpa using hk)]
    refine List.forall_mem_append.mpr ⟨hlater, fun x hx => ?_⟩
    obtain ⟨before, hcode, rfl⟩ := hcode
    rw [← List.append_assoc] at hcode
    rw [← Code.last_append] at hx
    obtain ⟨e, he, hle⟩ := Argument.exists_marks _ _ hcode x hx
    exact ⟨e, he, Nat.lt_of_le_of_lt hle hlt⟩

/-- A zero divisor under the right operand. -/
theorem settles_of_right_error (hg : Gathers m answers s n t
      (Argument.beginnings (Argument.lines (bs ++ [b]) ++ .instr i :: rest) id as) (as.map (·.result)) vs)
    (hkeeps : Keeps s t limit []) (hlimit : limit ≤ limit₁) (hresults : ∀ a ∈ as, a.result.index < limit₁)
    (h : Settles E m answers (bs ++ [b]) us r₂ ((Argument.lines as).last id) limit₁ σ₁ p₁
      (.instr i :: rest) t ws₁ (.error k)) :
    Settles E m answers (as ++ (bs ++ [b.followed i])) (vs ++ us) r id limit σ₂ p₂ rest s ws₂
      (.error (as.length + k)) := by
  obtain ⟨l, u, d, hg', hkeeps', htrap, hd, hlt, hk, hlater⟩ := h
  have hvs : vs.length = as.length := by simpa using hg.values.length_eq.symm
  refine ⟨n + l, u, d, ?_, hkeeps.trans (hkeeps'.mono hlimit), htrap, hd, ?_, ?_, ?_⟩
  · have hall := hg.trans hg' ?_
    · have htake : ∀ {α : Type} (xs ys : List α), xs.length = as.length →
          (xs ++ ys).take (as.length + k) = xs ++ ys.take k := by
        intro α xs ys hlen
        rw [← hlen, List.take_length_add_append]
      rw [beginnings_node, map_result_node, htake _ _ (by simp), htake _ _ (by simp), htake _ _ hvs]
      exact hall
    · rw [List.forall_mem_map]
      exact fun a ha v hv => hv.keep hkeeps' (hresults a ha) List.not_mem_nil
  · exact Nat.lt_of_succ_lt hlt
  · simp at hk ⊢
    omega
  · have hlen : (Argument.beginnings (Argument.lines (bs ++ [b]) ++ .instr i :: rest) id as).length = as.length := by
      simp
    rw [beginnings_node, ← hlen, List.drop_length_add_append]
    exact hlater

/-- Both operands are there for the operation. -/
theorem settles_of_operation {op : ArithOp} {values : List Int64} {ws' : List Write} {x y : Reg} {a c : Int64}
    {i j : Nat} (hlen : args.length = i + j)
    (hg : Gathers m answers s n t (Argument.beginnings rest id args) (args.map (·.result)) values)
    (ht : E.Ready σ' p'.current (.instr (.binary r op.instruction (.reg x) (.reg y)) :: rest) t ws')
    (hkeeps : Keeps s t limit []) (hr : E.slots < r.index) (hresults : ∀ a ∈ args, a.result ≠ r)
    (hx : HoldsInt x a t) (hy : HoldsInt y c t) :
    Settles E m answers args values r id limit σ' p' rest s ws' (Split.combine op i j (.ok a) (.ok c)) := by
  rw [Split.combine, ← hlen]
  have hx := hx.read rest.instrs
  have hy := hy.read rest.instrs
  cases hv : op.apply a c with
  | some v =>
    obtain ⟨u, hstep, hu, hk, hres⟩ := ht.put (m := m) (v := .int v) hr
      (fun _ => by simp [Instr.run, hx, hy, op.apply_instruction, hv])
    refine ⟨n + 1, u, hg.step (hstep _) (hk 0).callers ?_, hu, hkeeps.trans (hk limit), hres⟩
    rw [List.forall_mem_map]
    exact fun b hb w hw => hw.keep (hk _) (Nat.lt_succ_self _) (by simpa using hresults b hb)
  | none =>
    refine ⟨n, t, _, hg.take_length, hkeeps, ?_, ht.stands, Nat.lt_succ_self _, Nat.le_refl _, ?_⟩
    · rw [IR.Module.step, ht.todo]
      simp [Code.instrs, Instr.run, hx, hy, op.apply_instruction, hv]
    · rw [List.drop_of_length_le (by simp)]
      exact List.forall_mem_nil _

theorem node_settles {op : ArithOp} {left right : Split Expr} {σ : Scope Storage} {ws : List Write}
    {x y : Except Nat Int64} (h₁ : Arranged E.abi known left (p.fresh 0) σ (p.skip 2) as σ₁ p₁)
    (h₂ : Arranged E.abi known right (p.fresh 1) σ₁ p₁ (bs ++ [b]) σ₂ p₂) (hroom : E.Room [r] p)
    (hs : E.Ready σ p.current
      (Argument.lines as ++ (Argument.lines (bs ++ [b]) ++ .instr (op.operation r p) :: rest)) s ws)
    (hvs : vs.length = as.length)
    (hl : Settles E m answers as vs (p.fresh 0) p.current (p.reg + 2) σ₁ p₁
      (Argument.lines (bs ++ [b]) ++ .instr (op.operation r p) :: rest) s ws₁ x)
    (hr : ∀ {t}, E.Ready σ₁ p₁.current
        (Argument.lines (bs ++ [b]) ++ .instr (op.operation r p) :: rest) t ws₁ →
      Settles E m answers (bs ++ [b]) us (p.fresh 1) p₁.current p₁.reg σ₂ p₂
        (.instr (op.operation r p) :: rest) t ws₂ y) :
    Settles E m answers (as ++ (bs ++ [b.followed (op.operation r p)])) (vs ++ us) r p.current p.reg
      σ₂ p₂ rest s ws₂ (Split.combine op as.length (bs ++ [b]).length x y) := by
  have hreg := h₁.emits.before.reg
  rw [Point.skip_reg] at hreg
  have hlast := h₁.emits.current
  rw [Point.skip_current] at hlast
  obtain ⟨hslots, hlt⟩ := hroom.targets r (by simp)
  have hbelow : ∀ a ∈ as, a.result.index < p₁.reg := h₁.result_lt (by simp; omega)
  have hapart : ∀ a ∈ as, a.result ≠ p.fresh 1 := h₁.result_ne (by simp) (by simp)
  have hresults : ∀ a ∈ as ++ (bs ++ [b.followed (op.operation r p)]), a.result ≠ r := by
    have hne : ∀ i, r ≠ p.fresh i := by
      rintro i rfl
      rw [Point.fresh_index] at hlt
      omega
    have hleft := h₁.result_ne (x := r) (by simp; omega) (hne 0)
    have hright := h₂.result_ne (x := r) (by omega) (hne 1)
    rw [List.forall_mem_append, List.forall_mem_singleton] at hright
    rw [List.forall_mem_append, List.forall_mem_append, List.forall_mem_singleton]
    exact ⟨hleft, hright⟩
  cases x with
  | error k => exact settles_of_left_error hs.place hvs (by omega) hl
  | ok a =>
    obtain ⟨n, t, hg, ht, hk, ha⟩ := hl
    have hr := hr ht
    rw [hlast] at hr
    have hkt : Keeps s t p.reg [] := hk.below (by omega) (by simp)
    cases y with
    | error k => exact settles_of_right_error hg hkt (by omega) hbelow hr
    | ok c =>
      obtain ⟨l, u, hg', hu, hk', hc⟩ := hr
      have hall := hg.trans hg' ?_
      · rw [← beginnings_node, ← map_result_node] at hall
        exact settles_of_operation (by simp) hall hu (hkt.trans (hk'.below (by omega) (by simp))) hslots hresults
          (ha.keep hk' (by simp; omega) (by simp)) hc
      · rw [List.forall_mem_map]
        exact fun a ha v hv => hv.keep hk' (hbelow a ha) (by simpa using hapart a ha)

end Nodes

/-- The code of a tree gathers the values of the arguments until the operations meet a zero divisor. -/
theorem Arranged.settles (hcalls : CallsRealized m answers E.abi known depth call) {t : Split (Expr × Int64)}
    (h : Arranged E.abi known (t.map Prod.fst) r σ p args σ' p') (hroom : E.Room [r] p) {rest : Code}
    {ws ws' : List Write} (hs : E.Ready σ p.current (Argument.lines args ++ rest) s ws)
    (hvalues : Run.inOrder (t.leaves.map fun x => x.1.meaning answers call E.vars) ws =
      .ok (t.leaves.map Prod.snd, ws')) :
    Settles E m answers args (t.leaves.map Prod.snd) r p.current p.reg σ' p' rest s ws' (t.map Prod.snd).value := by
  induction t generalizing r σ p args σ' p' s rest ws ws' with
  | leaf x =>
    cases h with
    | leaf h =>
      rw [Argument.lines_singleton] at hs
      exact argument_settles hcalls h hroom hs (Run.ok_of_inOrder_singleton hvalues)
  | node op left right ihl ihr =>
    simp only [Split.leaves, List.map_append] at hvalues ⊢
    cases h with
    | node bs h₁ h₂ =>
      obtain ⟨ws₁, hleft, hright⟩ := Run.ok_of_inOrder_append (by simp) hvalues
      have hlength₁ := h₁.length_eq
      have hlength₂ := h₂.length_eq
      rw [Split.leaves_map, List.length_map] at hlength₁ hlength₂
      have hroom₁ : E.Room [p.fresh 0] (p.skip 2) := hroom.fresh (by simp) hroom.current
      have hroom₂ : E.Room [p.fresh 1] _ :=
        hroom.fresh (Nat.lt_of_lt_of_le (by simp) h₁.emits.before.reg) (h₁.emits.current_lt hroom.current)
      simp only [Argument.lines_append, Argument.lines_cons, Argument.lines_nil, Argument.line_followed] at hs
      have hsettles := node_settles h₁ h₂ hroom (by simpa using hs) (by simp [hlength₁])
        (ihl h₁ hroom₁ (by simpa using hs) hleft) fun ht => ihr h₂ hroom₂ ht hright
      simpa only [Split.map, Split.value, Split.leaves_map, List.length_map, hlength₁, hlength₂] using hsettles

end Evaluation

/-! ## Arithmetic in a compiled program -/

/-- A run that evaluates the first `k` of the arguments in some code, from left to right: it begins each of them
once and begins no other one, and in the end their registers hold their values. -/
structure Argument.Evaluated (m : IR.Module) (answers : Nat → Int64) (args : List Argument) (rest : Code)
    (values : List Int64) (s : State) (n : Nat) (t : State) (k : Nat) : Prop where
  run : m.run answers n s = .running t
  distinct : (beginnings rest s.top.block args).Nodup
  begun : (m.path answers s.callers.length n s).filter (· ∈ beginnings rest s.top.block args) =
    (beginnings rest s.top.block args).take k
  values : List.Forall₂ (fun r v => HoldsInt r v t) ((args.map (·.result)).take k) (values.take k)

section Programs
variable {E : Setting} {m : IR.Module} {answers : Nat → Int64} {args : List Argument} {rest : Code}
  {values : List Int64} {s t : State} {n k : Nat}

theorem Gathers.evaluated (hE : E.Forward) {σ : Scope Storage} {id : BlockId} {c : Code} {ws : List Write}
    (hs : E.Ready σ id (Argument.lines args ++ rest) s ws) (hcallers : s.callers = [])
    (hlines : ∀ a ∈ args, a.line ≠ []) (h : Gathers m answers s n t ((Argument.beginnings rest id args).take k)
      ((args.map (·.result)).take k) (values.take k)) (hc : E.Stands c t.top)
    (hlater : ∀ x ∈ (Argument.beginnings rest id args).drop k, ∃ e, E.Marks e x ∧ e.length ≤ c.length) :
    Argument.Evaluated m answers args rest values s n t k := by
  obtain ⟨before, hcode, hlast⟩ := hs.place
  have hplaces := Argument.pairwise_beginnings args rest hcode hlines
  rw [hlast] at hplaces
  have hbegun := h.places
  rw [hcallers] at hbegun
  constructor
  · exact h.run
  · rw [hs.block]
    exact hplaces.imp fun hxy heq => (heq ▸ hxy).asymm (heq ▸ hxy)
  · rw [hs.block, hcallers]
    exact hs.stands.filter_path hE hcallers h.run (h.callers.trans hcallers) hc hplaces hbegun hlater
  · exact h.values

theorem Keeps.above {limit : Nat} {targets : List Reg} (h : Keeps s t limit targets)
    (callers : List (Reg × IR.Activation)) : Keeps (s.above callers) (t.above callers) limit targets :=
  { h with callers := congrArg (· ++ callers) h.callers }

/-- Callers change nothing for an evaluation. -/
theorem Argument.Evaluated.above (h : Evaluated m answers args rest values s n t k) (hs : s.callers = [])
    (callers : List (Reg × IR.Activation)) :
    Evaluated m answers args rest values (s.above callers) n (t.above callers) k where
  run := IR.run_above callers h.run
  distinct := h.distinct
  begun := by
    have hbegun := h.begun
    rw [← IR.path_above callers h.run, hs] at hbegun
    simpa [State.above, hs] using hbegun
  values := h.values

variable {op : ArithOp} {es : List Expr} {target : Reg} {σ σ' : Scope Storage} {p p' : Point}

/-- Compiling arithmetic emits the arguments of its tree. -/
theorem arithmetic_arranged {u u' : LowerState} {cx : Context} {L : Layout} {waiting : List (BlockId × String)}
    (hu : u.At cx σ L waiting p) {root : Scope Storage} {visible : List String} (hroot : OnlyFunctions root visible)
    {head : String} {span : Span} (h : Lower.arithmetic op head span (lowerEach es root) target u = .ok () u')
    {known : String → Nat → Prop} (hknown : u'.context.Agrees known) :
    ∃ t args σ' p', Split.ofList? op es = some t ∧ Arranged cx.abi known t target σ p args σ' p' ∧
      u'.At u'.context σ' (L.append (Argument.lines args)) waiting p' := by
  rw [Lower.arithmetic, lowerEach_eq_map, Split.ofList?_map] at h
  cases ht : Split.ofList? op es with
  | none =>
    rw [ht] at h
    cases h
  | some t =>
    rw [ht] at h
    have hleaves : ∀ e ∈ t.leaves, Lowers True (e.lower root) (.expr e) (e.sites visible) :=
      Lowerable.each (fun e _ => e.lowerable) hroot fun _ _ _ => trivial
    obtain ⟨cx', σ', code, p', hu', -, hem⟩ := (tree_lowers t hleaves target hu).of_eq_ok h
    rw [hu'.context] at hknown
    obtain ⟨args, -, rfl, hargs⟩ := (hem known hknown).exists_arranged
    refine ⟨t, args, σ', p', rfl, hargs, ?_⟩
    rw [hu'.context]
    exact hu'

/-- A call's arguments are evaluated from left to right, and the code comes to the fold of their values. -/
theorem Arranged.evaluates {known : String → Nat → Prop} {call : String → List Int64 → Run Int64} {depth : Nat}
    (hcalls : CallsRealized m answers E.abi known depth call) (hE : E.Forward) {t : Split Expr}
    (ht : Split.ofList? op es = some t) (h : Arranged E.abi known t target σ p args σ' p') (hroom : E.Room [target] p)
    {ws ws' : List Write} (hs : E.Ready σ p.current (Argument.lines args ++ rest) s ws) {v : Int64} {vs : List Int64}
    (hvalues : Run.inOrder (es.map (Expr.meaning answers call E.vars)) ws = .ok (v :: vs, ws')) :
    ∃ n t, match op.fold v vs with
      | .ok w => Argument.Evaluated m answers args rest (v :: vs) s n t args.length ∧
          E.Ready σ' p'.current rest t ws' ∧ Keeps s t p.reg [target] ∧ HoldsInt target w t
      | .error j => Argument.Evaluated m answers args rest (v :: vs) s n t (j + 2) ∧ j + 2 ≤ args.length ∧
          m.step (answers t.trace.length) t = .trapped := by
  have hlen : es.length = (v :: vs).length := by simpa using (Run.length_of_inOrder hvalues).symm
  obtain ⟨z, rfl, hz, hleaves⟩ := Split.exists_zip ht hlen
  have hexprs : z.leaves.map Prod.fst = es := by rw [hleaves, List.map_fst_zip (Nat.le_of_eq hlen)]
  have hints : z.leaves.map Prod.snd = v :: vs := by rw [hleaves, List.map_snd_zip (Nat.le_of_eq hlen.symm)]
  -- the run is made without the callers, which are put back below it
  have hs₀ : E.Ready σ p.current (Argument.lines args ++ rest) { s with callers := [] } ws := { hs with }
  rw [← hexprs, List.map_map, ← hints] at hvalues
  have hsettles := h.settles hcalls hroom hs₀ hvalues
  rw [hints, Split.value_of_ofList? hz] at hsettles
  cases hfold : op.fold v vs with
  | ok w =>
    rw [hfold] at hsettles
    obtain ⟨n, t, hg, ht, hk, hw⟩ := hsettles
    have hall : Argument.Evaluated m answers args rest (v :: vs) { s with callers := [] } n t args.length := by
      apply hg.take_length.evaluated hE hs₀ rfl h.line_ne_nil ht.stands
      rw [List.drop_of_length_le (by simp)]
      exact List.forall_mem_nil _
    exact ⟨n, t.above s.callers, hall.above rfl s.callers, { ht with }, hk.above s.callers, hw⟩
  | error j =>
    rw [hfold] at hsettles
    obtain ⟨n, t, c, hg, -, htrap, hc, -, hle, hlater⟩ := hsettles
    have hsome : Argument.Evaluated m answers args rest (v :: vs) { s with callers := [] } n t (j + 2) := by
      apply Gathers.evaluated hE hs₀ rfl h.line_ne_nil hg hc
      intro x hx
      obtain ⟨e, he, hlt⟩ := hlater x hx
      exact ⟨e, he, Nat.le_of_lt hlt⟩
    refine ⟨n, t.above s.callers, hsome.above rfl s.callers, hle, ?_⟩
    have hstep : m.step (answers t.trace.length) (t.above s.callers) = _ := IR.step_above s.callers (by simp [htrap])
    rw [htrap] at hstep
    exact hstep

/-- Wherever the code of an arithmetic call stands in a compiled program, it evaluates the arguments from left to
right. If the fold of their values from the left has a value, all of them are evaluated, once, and the target
holds that value. If the fold meets a zero divisor, the arguments up to it are evaluated, once, and the program
traps. -/
theorem arithmetic_folds {cx : Context} {name : String} {program : List Expr}
    (hm : compile cx.abi name program = .ok m) {u u' : LowerState} {L : Layout} {waiting : List (BlockId × String)}
    (hu : u.At cx σ L waiting p) {root : Scope Storage} {visible : List String} (hroot : OnlyFunctions root visible)
    {head : String} {span : Span} (h : Lower.arithmetic op head span (lowerEach es root) target u = .ok () u')
    (hknown : u'.context.Agrees (Defines program)) :
    ∃ t args σ' p', Split.ofList? op es = some t ∧ Arranged cx.abi (Defines program) t target σ p args σ' p' ∧
      u'.At u'.context σ' (L.append (Argument.lines args)) waiting p' ∧
      ∀ {E : Setting} {answers : Nat → Int64} {rest : Code} {s : State} {ws ws' : List Write} {v : Int64}
        {vs : List Int64}, E.abi = cx.abi → E.function ∈ m.functions → E.Room [target] p →
        E.Ready σ p.current (Argument.lines args ++ rest) s ws →
        Computes program answers E.vars es ws (v :: vs) ws' →
        ∃ n t, match op.fold v vs with
          | .ok w => Argument.Evaluated m answers args rest (v :: vs) s n t args.length ∧
              E.Ready σ' p'.current rest t ws' ∧ Keeps s t p.reg [target] ∧ HoldsInt target w t
          | .error j => Argument.Evaluated m answers args rest (v :: vs) s n t (j + 2) ∧ j + 2 ≤ args.length ∧
              m.step (answers t.trace.length) t = .trapped := by
  obtain ⟨t, args, σ', p', ht, hargs, hu'⟩ := arithmetic_arranged hu hroot h hknown
  refine ⟨t, args, σ', p', ht, hargs, hu', ?_⟩
  intro E answers rest s ws ws' v vs habi hf hroom hs hvalues
  have hprogram := compiledProgram_of_compile hm
  obtain ⟨depth, hdepth⟩ := hvalues.eventually hprogram.distinct
  rw [← habi] at hprogram hargs
  exact hargs.evaluates (hprogram.calls_realized depth) (hprogram.forward hf) ht hroom hs
    (hdepth depth (Nat.le_refl depth))

/-- The call `(- 10 4 3 2)`. -/
def subtraction : Call := ⟨"-", [.int 10 default, .int 4 default, .int 3 default, .int 2 default], default⟩

def subtractionTree : Split Expr :=
  .node .sub (.node .sub (.leaf (.int 10 default)) (.leaf (.int 4 default)))
    (.node .add (.leaf (.int 3 default)) (.leaf (.int 2 default)))

def subtractionArguments : List Argument :=
  [⟨⟨4⟩, constantCode 10 ⟨4⟩, []⟩,
    ⟨⟨5⟩, constantCode 4 ⟨5⟩, [.binary ⟨2⟩ .sub (.reg ⟨4⟩) (.reg ⟨5⟩)]⟩,
    ⟨⟨6⟩, constantCode 3 ⟨6⟩, []⟩, ⟨⟨7⟩, constantCode 2 ⟨7⟩,
      [.binary ⟨3⟩ .add (.reg ⟨6⟩) (.reg ⟨7⟩), .binary ⟨1⟩ .sub (.reg ⟨2⟩) (.reg ⟨3⟩)]⟩]

/-- The body of `(def main () (- 10 4 3 2))`. -/
def subtractionSetting : Setting where
  abi := .linuxX64
  function := ⟨"main", [], (Argument.lines subtractionArguments).blocks (.ret (.reg ⟨1⟩)) ⟨0⟩ "entry"⟩
  args := []
  final := .ret (.reg ⟨1⟩)
  code := Argument.lines subtractionArguments
  consists := ⟨rfl, by decide⟩
  slots := 0

def subtractionState : State where
  top := {
    function := subtractionSetting.function
    args := []
    block := ⟨0⟩
    todo := Code.instrs (Argument.lines subtractionArguments)
    terminator := .ret (.reg ⟨1⟩) }

def subtractionStart : LowerState :=
  ⟨.new "m" .linuxX64, (IR.Builder.new "main" []).freshReg.2, Scope.empty.push⟩

def LowerM.after? (step : LowerM Unit) (u : LowerState) : Option LowerState :=
  match step u with
  | .ok _ u => some u
  | .error _ _ => none

theorem arithmetic_folds_subtraction : ∃ m u n t,
    compile .linuxX64 "m" [.define (mainOf [.call subtraction default]) default] = .ok m ∧
    Lower.arithmetic .sub "-" default (lowerEach subtraction.args .empty) ⟨1⟩ subtractionStart = .ok () u ∧
    Argument.Evaluated m (fun _ => 0) subtractionArguments [] [10, 4, 3, 2] subtractionState n t 4 ∧
    HoldsInt ⟨1⟩ 1 t := by
  have hcompile : (compile .linuxX64 "m" [.define (mainOf [.call subtraction default]) default]).toOption.map
      (·.functions) = some [subtractionSetting.function] := by decide +kernel
  obtain ⟨m, hm, hfunctions⟩ := exists_of_map_toOption hcompile
  have hnew : LowerState.At ⟨.new "m" .linuxX64, IR.Builder.new "main" [], Scope.empty.push⟩ (.new "m" .linuxX64)
      Scope.empty.push (.start "main" []) [] ⟨1, 1, 1, ⟨0⟩⟩ :=
    ⟨rfl, rfl, IR.Builder.holds_new "main" [], rfl, rfl, rfl, rfl⟩
  have hfresh : Yields True LowerM.freshReg _ _ := freshReg_yields hnew
  obtain ⟨-, hstart⟩ := hfresh.of_eq_ok (t := subtractionStart) rfl
  have htree : Split.ofList? .sub subtraction.args = some subtractionTree := by
    simp [subtraction, subtractionTree, Split.ofList?, ArithOp.leftCount, ArithOp.onRight]
  obtain ⟨u, hu, hsignatures⟩ : ∃ u, Lower.arithmetic .sub "-" default (lowerEach subtraction.args .empty) ⟨1⟩
      subtractionStart = .ok () u ∧ u.context.signatures = [] := by
    have hafter : (LowerM.after? (Lower.arithmetic .sub "-" default (lowerEach subtraction.args .empty) ⟨1⟩)
        subtractionStart).map (·.context.signatures) = some [] := by decide +kernel
    obtain ⟨u, hu, hsignatures⟩ := Option.map_eq_some_iff.mp hafter
    unfold LowerM.after? at hu
    split at hu
    case h_1 v hv =>
      cases hu
      exact ⟨u, hv, hsignatures⟩
    case h_2 => cases hu
  have hknown : u.context.Agrees (Defines [.define (mainOf [.call subtraction default]) default]) := by
    intro name sig hsig
    rw [hsignatures] at hsig
    cases hsig
  obtain ⟨t, args, σ', p', ht, hargs, -, hfolds⟩ := arithmetic_folds hm hstart onlyFunctions_empty hu hknown
  rw [htree] at ht
  cases ht
  have hsubtraction : Arranged .linuxX64 (Defines []) subtractionTree ⟨1⟩ Scope.empty.push
      ⟨2, 1, 1, ⟨0⟩⟩ _ _ _ :=
    .node [_] (.node [] (.leaf (.int 10 default _ _ _)) (.leaf (.int 4 default _ _ _)))
      (.node [] (.leaf (.int 3 default _ _ _)) (.leaf (.int 2 default _ _ _)))
  obtain ⟨rfl, rfl, -⟩ := hsubtraction.unique hargs fun _ _ => .rfl
  have hroom : subtractionSetting.Room [⟨1⟩] ⟨2, 1, 1, ⟨0⟩⟩ := ⟨by decide, by decide, by decide⟩
  have hready : subtractionSetting.Ready Scope.empty.push ⟨0⟩ (Argument.lines subtractionArguments ++ [])
      subtractionState [] :=
    ⟨rfl, rfl, rfl, rfl, rfl, ⟨[], rfl, rfl⟩, fun x r hx =>
      absurd hx (onlyFunctions_empty.push.no_slot x r), .nil⟩
  have hcomputes : Computes [.define (mainOf [.call subtraction default]) default] (fun _ => 0)
      subtractionSetting.vars subtraction.args [] [10, 4, 3, 2] [] :=
    .cons (.int 10 default []) (.cons (.int 4 default []) (.cons (.int 3 default [])
      (.cons (.int 2 default []) (.nil []))))
  have hmember : subtractionSetting.function ∈ m.functions := by
    rw [hfunctions]
    exact List.mem_singleton_self _
  obtain ⟨n, t, hrun⟩ := hfolds rfl hmember hroom hready hcomputes
  have hfold : ArithOp.sub.fold 10 [4, 3, 2] = .ok 1 := rfl
  rw [hfold] at hrun
  exact ⟨m, u, n, t, hm, hu, hrun.1, hrun.2.2.2⟩

end Programs

end SmallLisp
