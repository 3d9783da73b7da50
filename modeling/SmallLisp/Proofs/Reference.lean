import SmallLisp.Proofs.Correctness

/-! # Writes in the order of the program

A reference for what a program writes: expressions are computed from left to right, a name is a parameter of
the body that it stands in, a call is of the one definition with that name, and a write is done as soon as its
descriptor, its value and its length are there. It knows no depths and no faults, only what a run that
finishes has computed. The compiled program asks the kernel for the same writes in the same order.
-/
namespace SmallLisp
open IR (KernelCall)

section Relation
variable (program : List Expr) (answers : Nat → Int64)

/-- Expressions are computed one after the other where the writes `ws` were done. They have the values
`vs`, and then the writes `ws'` were done. -/
inductive Computes : (vars : String → Option Int64) → List Expr → (ws : List Write) → (vs : List Int64) →
    (ws' : List Write) → Prop
  | nil {vars : String → Option Int64} (ws : List Write) : Computes vars [] ws [] ws
  | cons {vars : String → Option Int64} {e : Expr} {es : List Expr} {ws ws₁ ws₂ : List Write} {v : Int64}
      {vs : List Int64} (h : Computes vars [e] ws [v] ws₁) (hs : Computes vars es ws₁ vs ws₂) :
    Computes vars (e :: es) ws (v :: vs) ws₂
  | int {vars : String → Option Int64} (v : Int64) (s : Span) (ws : List Write) :
    Computes vars [.int v s] ws [v] ws
  | name {vars : String → Option Int64} {x : String} {v : Int64} (hx : vars x = some v) (s : Span)
      (ws : List Write) : Computes vars [.name x s] ws [v] ws
  | define {vars : String → Option Int64} (d : Definition) (s : Span) (ws : List Write) :
    Computes vars [.define d s] ws [0] ws
  | arith {vars : String → Option Int64} {c : Call} {op : ArithOp} {ws ws' : List Write} {v r : Int64}
      {vs : List Int64} (hop : Builtin.ofHead? c.head = some (.arith op)) (h : Computes vars c.args ws (v :: vs) ws')
      (hr : op.fold v vs = .ok r) (s : Span) : Computes vars [.call c s] ws [r] ws'
  | compare {vars : String → Option Int64} {c : Call} {op : CompareOp} {ws ws' : List Write} {a b : Int64}
      (hop : Builtin.ofHead? c.head = some (.compare op)) (h : Computes vars c.args ws [a, b] ws') (s : Span) :
    Computes vars [.call c s] ws [if op.holds a b then 1 else 0] ws'
  | write {vars : String → Option Int64} {c : Call} {fd e length : Expr} {sr : Span} {ws ws' : List Write}
      {a v n : Int64} (hop : Builtin.ofHead? c.head = some .sysWrite) (hargs : c.args = [fd, .ref e sr, length])
      (h : Computes vars [fd, e, length] ws [a, v, n] ws') (s : Span) :
    Computes vars [.call c s] ws [if answers ws'.length = n then 0 else answers ws'.length]
      (ws' ++ [⟨a, v, n, answers ws'.length⟩])
  | user {vars : String → Option Int64} {c : Call} {d : Definition} {ws ws₁ ws₂ : List Write}
      {args vs : List Int64} {v : Int64} (hop : Builtin.ofHead? c.head = none) (hd : d ∈ definitions program)
      (hname : d.name = c.head) (h : Computes vars c.args ws args ws₁) (harity : args.length = d.arity)
      (hbody : Computes (d.variables args) d.body ws₁ vs ws₂) (hv : vs.getLast? = some v) (s : Span) :
    Computes vars [.call c s] ws [v] ws₂
  | branch {vars : String → Option Int64} {t : Call} {yes : Expr} {no : Option Expr} {op : CompareOp}
      {ws ws₁ ws₂ : List Write} {a b : Int64} {vs : List Int64} (hop : Builtin.ofHead? t.head = some (.compare op))
      (h : Computes vars t.args ws [a, b] ws₁)
      (hs : Computes vars (if op.holds a b then [yes] else no.toList) ws₁ vs ws₂) (s : Span) :
    Computes vars [.branch t yes no s] ws [vs.headD 0] ws₂

/-- A call of a function with arguments, in a run that begins with it, ends with a value and these writes. -/
def Definition.Finishes (d : Definition) (args : List Int64) (v : Int64) (ws : List Write) : Prop :=
  args.length = d.arity ∧
    ∃ vs, Computes program answers (d.variables args) d.body [] vs ws ∧ vs.getLast? = some v

end Relation

/-! ## Computations with values -/

namespace Run
variable {xs : List (Run Int64)} {x y z : Run Int64} {ws ws₁ ws₂ : List Write} {v : Int64} {vs : List Int64}

theorem inOrder_cons_of_ok (hx : x ws = .ok (v, ws₁)) (hxs : inOrder xs ws₁ = .ok (vs, ws₂)) :
    inOrder (x :: xs) ws = .ok (v :: vs, ws₂) := by
  rw [inOrder, bind_of_ok hx, bind_of_ok hxs]
  rfl

theorem inOrder_singleton_of_ok (hx : x ws = .ok (v, ws₁)) : inOrder [x] ws = .ok ([v], ws₁) :=
  inOrder_cons_of_ok hx rfl

/-- The value of the first of several computations. -/
theorem ok_of_inOrder_cons (h : inOrder (x :: xs) ws = .ok (v :: vs, ws₂)) :
    ∃ ws₁, x ws = .ok (v, ws₁) ∧ inOrder xs ws₁ = .ok (vs, ws₂) := by
  obtain ⟨a, ws₁, ha, h⟩ := bind_ok h
  obtain ⟨as, ws₂, has, h⟩ := bind_ok h
  cases h
  exact ⟨ws₁, ha, has⟩

theorem ok_of_inOrder_singleton (h : inOrder [x] ws = .ok ([v], ws₂)) : x ws = .ok (v, ws₂) := by
  obtain ⟨ws₁, hx, h⟩ := ok_of_inOrder_cons h
  cases h
  exact hx

/-- Operations that are done as soon as they can give what folding all the values gives. -/
theorem foldl_arith_of_ok {op : ArithOp} {r : Int64} (hy : y ws = .ok (v, ws₁))
    (hxs : inOrder xs ws₁ = .ok (vs, ws₂)) (hr : op.fold v vs = .ok r) :
    xs.foldl (arith op) y ws = .ok (r, ws₂) := by
  induction xs generalizing y v ws ws₁ vs with
  | nil =>
    cases hxs
    cases hr
    exact hy
  | cons x xs ih =>
    cases vs with
    | nil => exact absurd (length_of_inOrder hxs) nofun
    | cons a as =>
      obtain ⟨ws₃, hx, hrest⟩ := ok_of_inOrder_cons hxs
      rw [ArithOp.fold] at hr
      cases hw : op.apply v a with
      | none =>
        rw [hw] at hr
        cases hr
      | some w =>
        have hstep : arith op y x ws = .ok (w, ws₃) := by
          rw [arith, bind_of_ok hy, bind_of_ok hx]
          simp only [hw]
          rfl
        have hfold : op.fold w as = .ok r := by
          simp only [hw] at hr
          cases hf : op.fold w as with
          | ok r' =>
            rw [hf] at hr
            exact hr
          | error i =>
            rw [hf] at hr
            cases hr
        exact ih hstep hrest hfold

theorem arithmetic_of_ok {op : ArithOp} {r : Int64} (hxs : inOrder xs ws = .ok (v :: vs, ws₂))
    (hr : op.fold v vs = .ok r) : arithmetic op xs ws = .ok (r, ws₂) := by
  cases xs with
  | nil => exact absurd (length_of_inOrder hxs) nofun
  | cons x xs =>
    obtain ⟨ws₁, hx, hrest⟩ := ok_of_inOrder_cons hxs
    exact foldl_arith_of_ok hx hrest hr

theorem compare_of_ok (op : CompareOp) {a b : Int64} (hxs : inOrder xs ws = .ok ([a, b], ws₂)) :
    compare op xs ws = .ok (op.holds a b, ws₂) := by
  match xs, length_of_inOrder hxs with
  | [x, y], _ =>
    rw [compare_eq, bind_of_ok hxs]
    rfl

theorem last_of_ok (hxs : inOrder xs ws = .ok (vs, ws₂)) (hv : vs.getLast? = some v) :
    last xs ws = .ok (v, ws₂) := by
  have hne : xs ≠ [] := by
    rintro rfl
    cases hxs
    cases hv
  rw [last_eq hne, bind_of_ok hxs]
  obtain ⟨init, rfl⟩ := List.getLast?_eq_some_iff.mp hv
  rw [List.getLastD_concat]
  rfl

theorem write_of_ok (answers : Nat → Int64) {a n : Int64} (h : inOrder [x, y, z] ws = .ok ([a, v, n], ws₂)) :
    write answers x y z ws = .ok (if answers ws₂.length = n then 0 else answers ws₂.length,
      ws₂ ++ [⟨a, v, n, answers ws₂.length⟩]) := by
  obtain ⟨ws₃, hx, h⟩ := ok_of_inOrder_cons h
  obtain ⟨ws₄, hy, h⟩ := ok_of_inOrder_cons h
  have hz := ok_of_inOrder_singleton h
  rw [write, bind_of_ok hx, bind_of_ok hy, bind_of_ok hz]
  rfl

end Run

/-! ## The reference and the meaning -/

section Meanings
variable {program : List Expr} {answers : Nat → Int64} {vars : String → Option Int64} {es : List Expr}
  {ws ws' : List Write} {vs : List Int64}

/-- What the reference computes is what expressions mean, as soon as calls may nest deep enough. -/
theorem Computes.eventually (hdistinct : ((definitions program).map (·.name)).Nodup)
    (h : Computes program answers vars es ws vs ws') : ∃ bound, ∀ depth, bound ≤ depth →
      Run.inOrder (es.map (Expr.meaning answers (callMeaning program answers depth) vars)) ws = .ok (vs, ws') := by
  -- a call needs one level more than its body, and parts in order need the greater of their bounds
  induction h with
  | nil ws => exact ⟨0, fun _ _ => rfl⟩
  | cons _ _ ih₁ ih₂ =>
    obtain ⟨n₁, h₁⟩ := ih₁
    obtain ⟨n₂, h₂⟩ := ih₂
    refine ⟨max n₁ n₂, fun depth hdepth => ?_⟩
    have hfirst := h₁ depth (by omega)
    have hrest := h₂ depth (by omega)
    exact Run.inOrder_cons_of_ok (Run.ok_of_inOrder_singleton hfirst) hrest
  | int v s ws => exact ⟨0, fun _ _ => rfl⟩
  | name hx s ws =>
    refine ⟨0, fun depth _ => Run.inOrder_singleton_of_ok ?_⟩
    rw [Expr.meaning, hx]
    rfl
  | define d s ws => exact ⟨0, fun _ _ => rfl⟩
  | arith hop _ hr s ih =>
    obtain ⟨n, h⟩ := ih
    refine ⟨n, fun depth hdepth => Run.inOrder_singleton_of_ok ?_⟩
    rw [Expr.meaning, Call.meaning_arith hop]
    exact Run.arithmetic_of_ok (h depth hdepth) hr
  | compare hop _ s ih =>
    obtain ⟨n, h⟩ := ih
    refine ⟨n, fun depth hdepth => Run.inOrder_singleton_of_ok ?_⟩
    rw [Expr.meaning, Call.meaning_compare hop, Run.bind_of_ok (Run.compare_of_ok _ (h depth hdepth))]
    split <;> rfl
  | write hop hargs _ s ih =>
    obtain ⟨n, h⟩ := ih
    refine ⟨n, fun depth hdepth => Run.inOrder_singleton_of_ok ?_⟩
    rw [Expr.meaning, Call.meaning_write hop hargs]
    exact Run.write_of_ok answers (h depth hdepth)
  | @user vars c d ws ws₁ ws₂ args vs v hop hd hname _ _ _ hv s ih₁ ih₂ =>
    obtain ⟨n₁, h₁⟩ := ih₁
    obtain ⟨n₂, h₂⟩ := ih₂
    refine ⟨max n₁ (n₂ + 1), fun depth hdepth => Run.inOrder_singleton_of_ok ?_⟩
    obtain ⟨depth, rfl⟩ : ∃ k, depth = k + 1 := ⟨depth - 1, by omega⟩
    have hargs := h₁ (depth + 1) (by omega)
    have hbody := h₂ depth (by omega)
    rw [Expr.meaning, Call.meaning_user hop, Run.bind_of_ok hargs, ← hname,
      callMeaning_succ (find?_of_nodup hdistinct hd)]
    exact Run.last_of_ok hbody hv
  | @branch vars t yes no op ws ws₁ ws₂ a b vs hop _ _ s ih₁ ih₂ =>
    obtain ⟨n₁, h₁⟩ := ih₁
    obtain ⟨n₂, h₂⟩ := ih₂
    refine ⟨max n₁ n₂, fun depth hdepth => Run.inOrder_singleton_of_ok ?_⟩
    have htest := h₁ depth (by omega)
    have hbranch := h₂ depth (by omega)
    rw [Expr.meaning_branch, Run.conditional, hop]
    simp only [Run.bind_of_ok (Run.compare_of_ok op htest)]
    cases hb : op.holds a b with
    | true =>
      rw [hb] at hbranch
      obtain ⟨v, rfl⟩ := List.length_eq_one_iff.mp (Run.length_of_inOrder hbranch)
      exact Run.ok_of_inOrder_singleton hbranch
    | false =>
      rw [hb] at hbranch
      cases no with
      | none =>
        cases hbranch
        rfl
      | some e =>
        obtain ⟨v, rfl⟩ := List.length_eq_one_iff.mp (Run.length_of_inOrder hbranch)
        exact Run.ok_of_inOrder_singleton hbranch

end Meanings

/-! ## Compiled programs -/

section Programs
variable {abi : IR.Abi} {name : String} {program : List Expr} {m : IR.Module}

/-- Where the reference finishes with a value, the compiled function returns it, and the system calls that
it executes are the writes of the reference, one for one and in the same order. -/
theorem returns_of_finishes (h : compile abi name program = .ok m) {d : Definition} (hd : d ∈ definitions program)
    {answers : Nat → Int64} {args : List Int64} {v : Int64} {ws : List Write}
    (hv : d.Finishes program answers args v ws) :
    ∃ trace, m.Returns answers d.name args v trace ∧ List.Forall₂ (KernelCall.Asks abi) trace ws := by
  have hm := compiledProgram_of_compile h
  obtain ⟨harity, vs, hbody, hlast⟩ := hv
  obtain ⟨depth, hdepth⟩ := hbody.eventually hm.distinct
  have hmeaning : callMeaning program answers (depth + 1) d.name args [] = .ok (v, ws) := by
    rw [callMeaning_succ (find?_of_nodup hm.distinct hd)]
    exact Run.last_of_ok (hdepth depth (Nat.le_refl depth)) hlast
  obtain ⟨s, hs, hruns⟩ := hm.runs answers ⟨d, hd, rfl, harity.symm⟩
  have hrun := hruns depth
  rw [hmeaning] at hrun
  obtain ⟨n, trace, hn, hasks⟩ := hrun
  exact ⟨trace, ⟨s, n, hs, hn⟩, hasks⟩

/-- The definition `(def put (b n) (sys_write 1 &b n))`. -/
def putDefinition : Definition :=
  ⟨"put", ["b", "n"], [.call ⟨"sys_write", [.int 1 default, .ref (.name "b" default) default, .name "n" default],
    default⟩ default], default⟩

def putCall (b n : Int64) : Expr := .call ⟨"put", [.int b default, .int n default], default⟩ default

/-- The call `(sys_write 2 &(put 10 1) 8)`. -/
def nestedWrite : Expr :=
  .call ⟨"sys_write", [.int 2 default, .ref (putCall 10 1) default, .int 8 default], default⟩ default

/-- The definition of `put` and `(def main () (+ (sys_write 2 &(put 10 1) 8) (put 72 1)))`. -/
def putProgram : List Expr :=
  [.define putDefinition default,
    .define (mainOf [.call ⟨"+", [nestedWrite, putCall 72 1], default⟩ default]) default]

/-- The kernel writes one byte, then five of eight, then one. -/
def putAnswers (i : Nat) : Int64 := if i = 1 then 5 else 1

theorem putCall_computes (vars : String → Option Int64) (b : Int64) (ws : List Write)
    (hanswer : putAnswers ws.length = 1) :
    Computes putProgram putAnswers vars [putCall b 1] ws [0] (ws ++ [⟨1, b, 1, 1⟩]) := by
  have hput : putDefinition ∈ definitions putProgram := by
    simp [definitions, putProgram, sitesEach, Expr.sites, Definition.sites_eq, putDefinition]
  have hwrite : Computes putProgram putAnswers (putDefinition.variables [b, 1]) putDefinition.body ws
      [if putAnswers ws.length = 1 then 0 else putAnswers ws.length] (ws ++ [⟨1, b, 1, putAnswers ws.length⟩]) :=
    .cons (.write rfl rfl (.cons (.int 1 default ws) (.cons (.name rfl default ws)
      (.cons (.name rfl default ws) (.nil ws)))) default) (.nil _)
  rw [hanswer, if_pos rfl] at hwrite
  exact .user rfl hput rfl (.cons (.int b default ws) (.cons (.int 1 default ws) (.nil ws))) rfl hwrite rfl default

/-- A write inside the operand of a write comes first. -/
theorem returns_of_finishes_put : ∃ m d, compile .linuxX64 "put" putProgram = .ok m ∧
    d ∈ definitions putProgram ∧
    d.Finishes putProgram putAnswers [] 5 [⟨1, 10, 1, 1⟩, ⟨2, 0, 8, 5⟩, ⟨1, 72, 1, 1⟩] ∧
    ∃ trace, m.Returns putAnswers d.name [] 5 trace ∧
      List.Forall₂ (KernelCall.Asks .linuxX64) trace [⟨1, 10, 1, 1⟩, ⟨2, 0, 8, 5⟩, ⟨1, 72, 1, 1⟩] := by
  have hmain : mainOf [.call ⟨"+", [nestedWrite, putCall 72 1], default⟩ default] ∈ definitions putProgram := by
    simp [definitions, putProgram, sitesEach, Expr.sites, Definition.sites_eq]
  have hwrite : Computes putProgram putAnswers ((mainOf []).variables []) [nestedWrite] [] [5]
      [⟨1, 10, 1, 1⟩, ⟨2, 0, 8, 5⟩] :=
    .write rfl rfl (.cons (.int 2 default []) (.cons (putCall_computes _ 10 [] rfl)
      (.cons (.int 8 default _) (.nil _)))) default
  have hfold : ArithOp.add.fold 5 [0] = .ok 5 := rfl
  have hsum : Computes putProgram putAnswers ((mainOf []).variables [])
      [.call ⟨"+", [nestedWrite, putCall 72 1], default⟩ default] [] [5] _ :=
    .arith rfl (.cons hwrite (putCall_computes _ 72 _ rfl)) hfold default
  have hfinishes : (mainOf [.call ⟨"+", [nestedWrite, putCall 72 1], default⟩ default]).Finishes putProgram
      putAnswers [] 5 [⟨1, 10, 1, 1⟩, ⟨2, 0, 8, 5⟩, ⟨1, 72, 1, 1⟩] := ⟨rfl, [5], hsum, rfl⟩
  cases hm : compile .linuxX64 "put" putProgram with
  | ok m => exact ⟨m, _, rfl, hmain, hfinishes, returns_of_finishes hm hmain hfinishes⟩
  | error e =>
    have hok : (compile .linuxX64 "put" putProgram).toOption.isSome := by decide +kernel
    rw [hm] at hok
    cases hok

end Programs
end SmallLisp
