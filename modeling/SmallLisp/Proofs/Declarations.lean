import SmallLisp.Proofs.LoweringSteps
import Mathlib.Data.List.Induction

/-! # Declarations in turn

Definitions are declared one after the other on one context, also after some were rejected. A definition that is
rejected is entered all the same, so the table holds the latest declaration of every name, and a rejection tells the
place of the one before. That this is the first one can be said only as long as names are not declared anew with
another signature; a compilation, which ends at the first rejection, does not go on after that.
-/
namespace SmallLisp
namespace Context

def declaring (cx : Context) (d : Definition) : Context :=
  match declare d cx with
  | .ok _ cx' | .error _ cx' => cx'

def rejection? (cx : Context) (d : Definition) : Option CompileError :=
  match declare d cx with
  | .ok .. => none
  | .error e _ => some e

def declareAll (cx : Context) (ds : List Definition) : Context := ds.foldl declaring cx

/-- The signature that a name got first, in the context at the start or by a declaration. -/
def first? (cx : Context) (ds : List Definition) (x : String) : Option Signature :=
  (cx.signature? x).or ((ds.find? (·.name == x)).map Definition.signature)

def latest? (cx : Context) (ds : List Definition) (x : String) : Option Signature :=
  ((ds.reverse.find? (·.name == x)).map Definition.signature).or (cx.signature? x)

/-- First declarations stand: at every point the table holds them, a rejection changes no entry, and it tells the
place of the first declaration of the name. -/
structure FirstStands (cx : Context) (ds : List Definition) : Prop where
  table : ∀ before after, ds = before ++ after → ∀ x, (cx.declareAll before).signature? x = cx.first? before x
  rejected : ∀ before d after, ds = before ++ d :: after → ∀ e, (cx.declareAll before).rejection? d = some e →
    (∀ x, (cx.declareAll (before ++ [d])).signature? x = (cx.declareAll before).signature? x) ∧
    ∃ p, cx.first? before d.name = some p ∧ e = .redefinition d.name d.span p.span

variable (cx : Context) (d : Definition) (ds : List Definition) (x : String)

/-! ## One declaration -/

theorem signature?_declaring : (cx.declaring d).signature? x =
    if d.name = x then some d.signature else cx.signature? x := by
  have hcontext : cx.declaring d = (cx.register d.signature).2 := by
    rw [declaring, declare_run]
    obtain ⟨_ | p, cx'⟩ := cx.register d.signature <;> rfl
  rw [hcontext]
  exact Scope.lookup_cons_eq_ite d.name d.signature cx.signatures x

theorem rejection?_eq : cx.rejection? d = (cx.signature? d.name).map fun p => .redefinition d.name d.span p.span := by
  have hprevious : (cx.register d.signature).1 = cx.signature? d.name := rfl
  rw [rejection?, declare_run, ← hprevious]
  obtain ⟨_ | p, cx'⟩ := cx.register d.signature <;> rfl

/-! ## Declarations in turn -/

theorem declareAll_concat : cx.declareAll (ds ++ [d]) = (cx.declareAll ds).declaring d := by
  rw [declareAll, List.foldl_append]
  rfl

theorem first?_concat : cx.first? (ds ++ [d]) x =
    (cx.first? ds x).or (if d.name = x then some d.signature else none) := by
  rw [first?, first?, List.find?_append, Option.map_or, ← Option.or_assoc]
  by_cases hx : d.name = x <;> simp [hx]

/-- The table holds the latest declaration of every name. -/
theorem signature?_declareAll : (cx.declareAll ds).signature? x = cx.latest? ds x := by
  induction ds using List.reverseRecOn with
  | nil => rfl
  | append_singleton ds d ih =>
    rw [declareAll_concat, signature?_declaring, ih, latest?, latest?, List.reverse_append, List.reverse_singleton,
      List.singleton_append, List.find?_cons]
    by_cases hx : d.name = x
    · simp [hx]
    · have hb : (d.name == x) = false := by simpa using hx
      rw [if_neg hx, hb]

/-- The table holds first declarations if none is followed by another with another signature. -/
theorem signature?_eq_first
    (h : ∀ before d after p, ds = before ++ d :: after → cx.first? before d.name = some p → d.signature = p) :
    (cx.declareAll ds).signature? x = cx.first? ds x := by
  induction ds using List.reverseRecOn generalizing x with
  | nil => exact (Option.or_none).symm
  | append_singleton ds d ih =>
    have hds := fun x => ih x fun before f after p hbefore => h before f (after ++ [d]) p (by simp [hbefore])
    rw [declareAll_concat, signature?_declaring, first?_concat, hds]
    by_cases hx : d.name = x
    · subst hx
      rw [if_pos rfl, if_pos rfl]
      cases hfirst : cx.first? ds d.name with
      | none => rfl
      | some p => rw [h ds d [] p rfl hfirst, Option.some_or]
    · rw [if_neg hx, if_neg hx, Option.or_none]

/-- After declarations in turn the table holds the latest one of every name, and a name that has one is rejected with
the place of that one. First declarations stand exactly if every later one of the name has the same signature. -/
theorem declareAll_latest : (∀ x, (cx.declareAll ds).signature? x = cx.latest? ds x) ∧
    (∀ d, (cx.declareAll ds).rejection? d =
      (cx.latest? ds d.name).map fun p => .redefinition d.name d.span p.span) ∧
    (cx.FirstStands ds ↔ ∀ before d after p, ds = before ++ d :: after → cx.first? before d.name = some p →
      d.signature = p) := by
  refine ⟨cx.signature?_declareAll ds, fun d => ?_, fun h before d after p hds hp => ?_, fun h => ⟨?_, ?_⟩⟩
  · rw [rejection?_eq, signature?_declareAll]
  · have htable : (cx.declareAll before).signature? d.name = some p := (h.table before _ hds d.name).trans hp
    have hrejected := h.rejected before d after hds _ (by rw [rejection?_eq, htable, Option.map_some])
    have hentry := hrejected.1 d.name
    rw [declareAll_concat, signature?_declaring, if_pos rfl, htable] at hentry
    exact Option.some.inj hentry
  · intro before after hds x
    exact cx.signature?_eq_first before x fun b d a p hb => h b d (a ++ after) p (by simp [hds, hb])
  · intro before d after hds e he
    have htable := fun x => cx.signature?_eq_first before x fun b f a p hb =>
      h b f (a ++ d :: after) p (by simp [hds, hb])
    rw [rejection?_eq, htable] at he
    obtain ⟨p, hp, rfl⟩ := Option.map_eq_some_iff.mp he
    refine ⟨fun x => ?_, p, hp, rfl⟩
    rw [declareAll_concat, signature?_declaring, htable]
    by_cases hx : d.name = x
    · rw [if_pos hx, ← hx, hp, h before d after p hds hp]
    · rw [if_neg hx]

end Context

/-- The definitions `(def f () 1)`, `(def f (x) 2)` and `(def f (x y) 3)`, each a place further on. -/
def redeclarations : Definition × Definition × Definition :=
  (⟨"f", [], [.int 1 ⟨10, 11⟩], ⟨0, 12⟩⟩, ⟨"f", ["x"], [.int 2 ⟨12, 13⟩], ⟨1, 14⟩⟩,
    ⟨"f", ["x", "y"], [.int 3 ⟨15, 16⟩], ⟨2, 17⟩⟩)

/-- The second definition is rejected and takes the place of the first; the third is then told to be first defined
where the second is. -/
theorem not_firstStands_redeclarations :
    ((Context.new "m" .linuxX64).declareAll [redeclarations.1]).rejection? redeclarations.2.1 =
      some (.redefinition "f" ⟨1, 14⟩ ⟨0, 12⟩) ∧
    ((Context.new "m" .linuxX64).declareAll [redeclarations.1, redeclarations.2.1]).signature? "f" =
      some ⟨"f", 1, ⟨1, 14⟩⟩ ∧
    ((Context.new "m" .linuxX64).declareAll [redeclarations.1, redeclarations.2.1]).rejection? redeclarations.2.2 =
      some (.redefinition "f" ⟨2, 17⟩ ⟨1, 14⟩) ∧
    ⟨⟨1, 14⟩, "first defined here", false⟩ ∈
      (CompileError.redefinition "f" ⟨2, 17⟩ ⟨1, 14⟩).diagnostic.labels ∧
    ¬ (Context.new "m" .linuxX64).FirstStands [redeclarations.1, redeclarations.2.1, redeclarations.2.2] := by
  refine ⟨by decide, by decide, by decide, ?_, fun h => ?_⟩
  · exact List.mem_cons_of_mem _ List.mem_cons_self
  · have htable := h.table [redeclarations.1, redeclarations.2.1] [redeclarations.2.2] rfl "f"
    exact absurd htable (by decide)

end SmallLisp
