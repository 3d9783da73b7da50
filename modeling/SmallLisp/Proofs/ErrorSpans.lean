import SmallLisp.Proofs.CompiledSource
import SmallLisp.Proofs.ReadingFaults
import SmallLisp.Proofs.SpanFidelity
import SmallLisp.Proofs.SpanIndependence

/-! # Where problems are reported

The interpreter and the compiler take the spans of their errors from the tree. As they do not look at spans, this
can be seen without going through them: if spans were changed that no expression of a program has, the program and
its error would stay the same, so the error has none of those.
-/
namespace SmallLisp

def NodeSpan (forms : List Expr) (s : Span) : Prop := ∃ e, Occurs forms e ∧ e.span = s

/-- A span that stays the same whenever those of expressions do is one of them. -/
theorem nodeSpan_of_fixed {forms : List Expr} {s : Span}
    (h : ∀ f : Span → Span, (∀ e, Occurs forms e → f e.span = e.span) → f s = s) : NodeSpan forms s := by
  by_contra hnot
  have hmoved := h (fun t => if t = s then ⟨s.start + 1, s.stop⟩ else t) fun e he =>
    if_neg fun hs => hnot ⟨e, he, hs⟩
  rw [if_pos rfl] at hmoved
  have hstart : s.start + 1 = s.start := congrArg Span.start hmoved
  omega

/-! ## Trees with spans of their own -/

/-- Calls and definitions have the span of the expression that they are. -/
def Expr.OwnSpan : Expr → Prop
  | .call c s => c.span = s
  | .define d s => d.span = s
  | _ => True

section Trees
variable {forms : List Expr}

/-- An expression stays the same where the spans of all expressions do. -/
theorem Occurs.mapSpans_eq {f : Span → Span} (hown : ∀ e, Occurs forms e → e.OwnSpan)
    (hf : ∀ e, Occurs forms e → f e.span = e.span) (e : Expr) : Occurs forms e → e.mapSpans f = e := by
  induction e using Expr.induction with
  | int v s | name x s => exact fun h => by rw [Expr.mapSpans, show f s = s from hf _ h]
  | ref e s ih => exact fun h => by rw [Expr.mapSpans, ih (h.child List.mem_cons_self), show f s = s from hf _ h]
  | call c s ih =>
    intro h
    obtain ⟨head, args, span⟩ := c
    obtain rfl : span = s := hown _ h
    rw [Expr.mapSpans, Call.mapSpans, mapSpansEach_eq_map, map_mapSpans_eq_self fun a ha => ih a ha (h.child ha),
      show f span = span from hf _ h]
  | define d s ih =>
    intro h
    obtain ⟨name, params, body, span⟩ := d
    obtain rfl : span = s := hown _ h
    rw [Expr.mapSpans, Definition.mapSpans, mapSpansEach_eq_map,
      map_mapSpans_eq_self fun e he => ih e he (h.child he), show f span = span from hf _ h]
  | branch t y n s iht ihy ihn =>
    intro h
    have htest : Occurs forms (.call t t.span) := h.child List.mem_cons_self
    have hyes : y.mapSpans f = y := ihy (h.child (List.mem_cons_of_mem _ List.mem_cons_self))
    have hno : n.map (Expr.mapSpans f) = n := by
      cases n with
      | none => rfl
      | some e => exact congrArg some (ihn e rfl (h.child (by simp [Expr.children])))
    obtain ⟨head, args, span⟩ := t
    rw [Expr.mapSpans_branch, Call.mapSpans, mapSpansEach_eq_map,
      map_mapSpans_eq_self fun a ha => iht a ha (htest.child ha), hyes, hno, show f span = span from hf _ htest,
      show f s = s from hf _ h]

/-! ## Programs that are read -/

variable {source : String} (hread : parse source = .ok forms)
include hread

theorem ownSpan_of_parse {e : Expr} (h : Occurs forms e) : e.OwnSpan := by
  obtain ⟨a, v, z, -, hpart⟩ := h.exists_partAt (formsAt_of_parse hread)
  cases hpart <;> first | rfl | exact trivial

theorem NodeSpan.partOf (hlen : byteLength source.toList ≤ maxOffset) {s : Span} (h : NodeSpan forms s) :
    s.PartOf source.toList := by
  obtain ⟨e, he, rfl⟩ := h
  obtain ⟨a, v, z, htext, hpart⟩ := he.exists_partAt (formsAt_of_parse hread)
  have hend : byteLength (a ++ v) ≤ byteLength source.toList := by
    rw [htext, ← List.append_assoc, byteLength_append (a ++ v)]
    exact Nat.le_add_right _ _
  rw [byteLength_append] at hend
  rw [hpart.span_of_le (Nat.le_trans hend hlen)]
  refine ⟨Nat.le_add_right _ _, hend, ⟨a, v ++ z, htext, rfl⟩, a ++ v, z, ?_, byteLength_append a v⟩
  rw [htext, List.append_assoc]

theorem mapSpans_eq_of_parse {f : Span → Span} (hf : ∀ e, Occurs forms e → f e.span = e.span) :
    forms.map (·.mapSpans f) = forms :=
  map_mapSpans_eq_self fun e he => Occurs.mapSpans_eq (fun _ h => ownSpan_of_parse hread h) hf e (.form he)

/-- Evaluation fails at an expression of the program. -/
theorem nodeSpan_of_interpret {depth : Nat} {e : EvalError} (h : interpret depth forms = some (.error e)) :
    NodeSpan forms e.span := by
  refine nodeSpan_of_fixed fun f hf => ?_
  have hmapped := interpret_mapSpans f depth forms
  rw [mapSpans_eq_of_parse hread hf, h] at hmapped
  have he : e = e.mapSpans f := by simpa [Except.mapError] using hmapped
  exact (congrArg EvalError.span he).symm

end Trees

def CompileError.previous? : CompileError → Option Span
  | .redefinition _ _ previous => some previous
  | _ => none

theorem CompileError.span?_mapSpans (f : Span → Span) (e : CompileError) :
    (e.mapSpans f).span? = e.span?.map f := by
  cases e <;> rfl

theorem CompileError.previous?_mapSpans (f : Span → Span) (e : CompileError) :
    (e.mapSpans f).previous? = e.previous?.map f := by
  cases e <;> rfl

/-- Compilation fails at an expression of the program, and points to another one for a redefinition. -/
theorem nodeSpan_of_compile {source : String} {forms : List Expr} (hread : parse source = .ok forms) {abi : IR.Abi}
    {name : String} {e : CompileError} (h : compile abi name forms = .error e) :
    (∃ s, e.span? = some s ∧ NodeSpan forms s) ∧ ∀ t ∈ e.previous?, NodeSpan forms t := by
  have hfixed : ∀ f : Span → Span, (∀ x, Occurs forms x → f x.span = x.span) → e.mapSpans f = e := by
    intro f hf
    have hmapped := compile_mapSpans f abi name forms
    rw [mapSpans_eq_of_parse hread hf, h] at hmapped
    exact (Except.error.inj hmapped).symm
  have hblame : e.BlamesProgram False := by
    have hspec := compile_spec abi name forms (body_ne_nil_of_parse hread)
    rwa [h] at hspec
  constructor
  · obtain ⟨s, hs⟩ : ∃ s, e.span? = some s := by
      cases e with
      | internal fault => cases fault <;> exact hblame.elim
      | malformed error => exact hblame.elim
      | _ => exact ⟨_, rfl⟩
    refine ⟨s, hs, nodeSpan_of_fixed fun f hf => ?_⟩
    have hspan := e.span?_mapSpans f
    rw [hfixed f hf, hs] at hspan
    exact (Option.some.inj hspan).symm
  · intro t ht
    refine nodeSpan_of_fixed fun f hf => ?_
    have hprevious := e.previous?_mapSpans f
    rw [hfixed f hf, ht] at hprevious
    exact (Option.some.inj hprevious).symm

/-! ## Problems -/

namespace Problem

/-- Where a problem is reported; a fault of the compiler itself is not reported anywhere. -/
def span? : Problem → Option Span
  | reading e => some e.span
  | evaluation e => some e.span
  | compilation e => e.span?

def previous? : Problem → Option Span
  | reading _ | evaluation _ => none
  | compilation e => e.previous?

end Problem

section Sources
variable {source : String} {p : Problem}

theorem problem_of_interpretSource {depth : Nat} (h : interpretSource depth source = some (.error p)) :
    (∃ e, parse source = .error e ∧ p = .reading e) ∨
      ∃ forms e, parse source = .ok forms ∧ interpret depth forms = some (.error e) ∧ p = .evaluation e := by
  unfold interpretSource at h
  cases hread : parse source with
  | error e =>
    rw [hread] at h
    cases h
    exact .inl ⟨e, rfl, rfl⟩
  | ok forms =>
    rw [hread] at h
    obtain ⟨result, hresult, he⟩ := Option.map_eq_some_iff.mp h
    cases result with
    | ok v => cases he
    | error e =>
      cases he
      exact .inr ⟨forms, e, rfl, hresult, rfl⟩

theorem problem_of_compileSource {name : String} {host : IR.Abi} (h : compileSource source name host = .error p) :
    (∃ e, parse source = .error e ∧ p = .reading e) ∨
      ∃ forms e, parse source = .ok forms ∧ compile host name forms = .error e ∧ p = .compilation e := by
  unfold compileSource at h
  cases hread : parse source with
  | error e =>
    simp only [hread, Except.mapError, bind, Except.bind] at h
    cases h
    exact .inl ⟨e, rfl, rfl⟩
  | ok forms =>
    cases hc : compile host name forms with
    | error e =>
      simp only [hread, hc, Except.mapError, bind, Except.bind] at h
      cases h
      exact .inr ⟨forms, e, rfl, hc, rfl⟩
    | ok m =>
      have hverify := (compiledProgram_of_compile hc).verify_ok
      simp only [hread, hc, hverify, Except.mapError, bind, Except.bind, pure, Except.pure] at h
      cases h

/-- Every problem of a text that spans can hold the places of is reported at a part of the text. In a text that
is read this is an expression, and so is the earlier definition of a name that is defined again. -/
theorem problem_located (hlen : byteLength source.toList < 4294967296)
    (h : (∃ depth, interpretSource depth source = some (.error p)) ∨
      ∃ name host, compileSource source name host = .error p) :
    ∃ s, p.span? = some s ∧ s.PartOf source.toList ∧
      ∀ forms, parse source = .ok forms → NodeSpan forms s ∧ ∀ t ∈ p.previous?, NodeSpan forms t := by
  have hmax : byteLength source.toList ≤ maxOffset := Nat.le_of_lt_succ hlen
  have hproblem : (∃ e, parse source = .error e ∧ p = .reading e) ∨
      ∃ forms s, parse source = .ok forms ∧ p.span? = some s ∧ NodeSpan forms s ∧
        ∀ t ∈ p.previous?, NodeSpan forms t := by
    rcases h with ⟨depth, h⟩ | ⟨name, host, h⟩
    · rcases problem_of_interpretSource h with hreading | ⟨forms, e, hread, he, rfl⟩
      · exact .inl hreading
      · exact .inr ⟨forms, e.span, hread, rfl, nodeSpan_of_interpret hread he, nofun⟩
    · rcases problem_of_compileSource h with hreading | ⟨forms, e, hread, he, rfl⟩
      · exact .inl hreading
      · obtain ⟨⟨s, hs, hnode⟩, hprevious⟩ := nodeSpan_of_compile hread he
        exact .inr ⟨forms, s, hread, hs, hnode, hprevious⟩
  rcases hproblem with ⟨e, hread, rfl⟩ | ⟨forms, s, hread, hs, hnode, hprevious⟩
  · refine ⟨e.span, rfl, partOf_of_parse_error hmax hread, fun forms hforms => ?_⟩
    rw [hread] at hforms
    cases hforms
  · refine ⟨s, hs, hnode.partOf hread hmax, fun forms' hforms => ?_⟩
    rw [hread] at hforms
    cases hforms
    exact ⟨hnode, hprevious⟩

end Sources

/-- A function is defined again at the end of the text, which is where the problem is reported. -/
theorem problem_located_redefinition : ∃ p, compileSource "(def f () 1) (def f () 2)" "m" = .error p ∧
    p.span? = some ⟨13, 25⟩ ∧ p.previous? = some ⟨0, 12⟩ ∧
    ∃ s, p.span? = some s ∧ s.PartOf "(def f () 1) (def f () 2)".toList ∧
      ∀ forms, parse "(def f () 1) (def f () 2)" = .ok forms →
        NodeSpan forms s ∧ ∀ t ∈ p.previous?, NodeSpan forms t := by
  have hcompile : compileSource "(def f () 1) (def f () 2)" "m" =
      .error (.compilation (.redefinition "f" ⟨13, 25⟩ ⟨0, 12⟩)) := by rfl
  exact ⟨_, hcompile, rfl, rfl, problem_located (by decide) (.inr ⟨"m", .host, hcompile⟩)⟩

end SmallLisp
