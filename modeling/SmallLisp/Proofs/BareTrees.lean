import SmallLisp.Proofs.DefinitionSites

/-! # Trees and their spans

The spans of an expression can be changed and the rest of it kept. Two expressions that differ in their spans
alone are read from texts that are laid out differently. With every span replaced by one and the same they are
equal, and the definitions in them are, one by one.
-/
namespace SmallLisp

/-! ## Other spans -/

mutual

def Expr.mapSpans (f : Span → Span) : Expr → Expr
  | .int v s => .int v (f s)
  | .name x s => .name x (f s)
  | .ref target s => .ref (target.mapSpans f) (f s)
  | .call c s => .call (c.mapSpans f) (f s)
  | .define d s => .define (d.mapSpans f) (f s)
  | .branch t yes no s => .branch (t.mapSpans f) (yes.mapSpans f)
      (match no with
        | some e => some (e.mapSpans f)
        | none => none) (f s)

def Call.mapSpans (f : Span → Span) : Call → Call
  | ⟨head, args, s⟩ => ⟨head, mapSpansEach f args, f s⟩

def Definition.mapSpans (f : Span → Span) : Definition → Definition
  | ⟨name, params, body, s⟩ => ⟨name, params, mapSpansEach f body, f s⟩

def mapSpansEach (f : Span → Span) : List Expr → List Expr
  | [] => []
  | e :: es => e.mapSpans f :: mapSpansEach f es

end

section
variable (f : Span → Span)

theorem mapSpansEach_eq_map (es : List Expr) : mapSpansEach f es = es.map (Expr.mapSpans f) := by
  induction es with
  | nil => simp only [mapSpansEach, List.map_nil]
  | cons e es ih => rw [mapSpansEach, ih, List.map_cons]

theorem Expr.mapSpans_branch (t : Call) (yes : Expr) (no : Option Expr) (s : Span) :
    (Expr.branch t yes no s).mapSpans f =
      .branch (t.mapSpans f) (yes.mapSpans f) (no.map (Expr.mapSpans f)) (f s) := by
  cases no <;> simp only [Expr.mapSpans, Option.map_none, Option.map_some]

theorem Definition.mapSpans_eq (d : Definition) :
    d.mapSpans f = ⟨d.name, d.params, d.body.map (Expr.mapSpans f), f d.span⟩ := by
  cases d
  rw [Definition.mapSpans, mapSpansEach_eq_map]

theorem Call.mapSpans_eq (c : Call) : c.mapSpans f = ⟨c.head, c.args.map (Expr.mapSpans f), f c.span⟩ := by
  cases c
  rw [Call.mapSpans, mapSpansEach_eq_map]

end

theorem Expr.span_mapSpans (f : Span → Span) (e : Expr) : (e.mapSpans f).span = f e.span := by
  cases e with
  | branch t y n s => rw [Expr.mapSpans_branch]; rfl
  | _ => rw [Expr.mapSpans]; rfl

/-- Only a call is a call after a change of its spans. -/
theorem Expr.exists_call_of_mapSpans {f : Span → Span} {e : Expr} {c : Call} {s : Span}
    (h : e.mapSpans f = .call c s) : ∃ c' s', e = .call c' s' ∧ c'.mapSpans f = c ∧ f s' = s := by
  cases e with
  | call c' s' =>
    rw [Expr.mapSpans] at h
    cases h
    exact ⟨c', s', rfl, rfl, rfl⟩
  | branch t y n s =>
    rw [Expr.mapSpans_branch] at h
    cases h
  | int _ _ | name _ _ | ref _ _ | define _ _ =>
    rw [Expr.mapSpans] at h
    cases h

theorem map_mapSpans_eq_self {f : Span → Span} {es : List Expr} (h : ∀ e ∈ es, e.mapSpans f = e) :
    es.map (·.mapSpans f) = es := (List.map_congr_left h).trans (List.map_id' es)

/-- An expression keeps its spans if each is replaced by itself. -/
theorem Expr.mapSpans_id (e : Expr) : e.mapSpans (fun s => s) = e := by
  induction e using Expr.induction with
  | int _ _ | name _ _ => rw [Expr.mapSpans]
  | ref _ _ ih => rw [Expr.mapSpans, ih]
  | call c _ ih =>
    rw [Expr.mapSpans, Call.mapSpans_eq, map_mapSpans_eq_self ih]
    cases c
    rfl
  | define d _ ih =>
    rw [Expr.mapSpans, Definition.mapSpans_eq, map_mapSpans_eq_self ih]
    cases d
    rfl
  | branch t _ n _ iht ihy ihn =>
    rw [Expr.mapSpans_branch, Call.mapSpans_eq, map_mapSpans_eq_self iht, ihy, Option.map_congr ihn,
      Option.map_id']
    cases t
    rfl

/-! ## No spans -/

mutual

def Expr.bare : Expr → Expr
  | .int v _ => .int v default
  | .name x _ => .name x default
  | .ref target _ => .ref target.bare default
  | .call c _ => .call c.bare default
  | .define d _ => .define d.bare default
  | .branch t yes no _ => .branch t.bare yes.bare
      (match no with
        | some e => some e.bare
        | none => none) default

def Call.bare : Call → Call
  | ⟨head, args, _⟩ => ⟨head, bareEach args, default⟩

def Definition.bare : Definition → Definition
  | ⟨name, params, body, _⟩ => ⟨name, params, bareEach body, default⟩

def bareEach : List Expr → List Expr
  | [] => []
  | e :: es => e.bare :: bareEach es

end

theorem bareEach_eq_map (es : List Expr) : bareEach es = es.map Expr.bare := by
  induction es with
  | nil => simp only [bareEach, List.map_nil]
  | cons e es ih => rw [bareEach, ih, List.map_cons]

theorem Expr.bare_branch (t : Call) (yes : Expr) (no : Option Expr) (s : Span) :
    (Expr.branch t yes no s).bare = .branch t.bare yes.bare (no.map Expr.bare) default := by
  cases no <;> simp only [Expr.bare, Option.map_none, Option.map_some]

theorem Definition.bare_eq (d : Definition) : d.bare = ⟨d.name, d.params, d.body.map Expr.bare, default⟩ := by
  cases d
  rw [Definition.bare, bareEach_eq_map]

theorem Call.bare_eq (c : Call) : c.bare = ⟨c.head, c.args.map Expr.bare, default⟩ := by
  cases c
  rw [Call.bare, bareEach_eq_map]

/-- Nothing is left of the spans of an expression where they all become the same. -/
theorem Expr.mapSpans_default (e : Expr) : e.mapSpans (fun _ => default) = e.bare := by
  induction e using Expr.induction with
  | int _ _ | name _ _ => rw [Expr.mapSpans, Expr.bare]
  | ref _ _ ih => rw [Expr.mapSpans, Expr.bare, ih]
  | call c _ ih => rw [Expr.mapSpans, Expr.bare, Call.mapSpans_eq, Call.bare_eq, List.map_congr_left ih]
  | define d _ ih =>
    rw [Expr.mapSpans, Expr.bare, Definition.mapSpans_eq, Definition.bare_eq, List.map_congr_left ih]
  | branch t _ n _ iht ihy ihn =>
    rw [Expr.mapSpans_branch, Expr.bare_branch, Call.mapSpans_eq, Call.bare_eq, List.map_congr_left iht, ihy,
      Option.map_congr ihn]

/-- Only a call is a call without its spans. -/
theorem Expr.exists_call_of_bare {e : Expr} {c : Call} {s : Span} (h : e.bare = .call c s) :
    ∃ c' s', e = .call c' s' ∧ c'.bare = c := by
  rw [← Expr.mapSpans_default] at h
  obtain ⟨c', s', rfl, -, -⟩ := Expr.exists_call_of_mapSpans h
  rw [Expr.mapSpans_default, Expr.bare] at h
  cases h
  exact ⟨c', s', rfl, rfl⟩

def Site.bare (site : Site) : Site := ⟨site.definition.bare, site.visible⟩

theorem sitesEach_bare {es : List Expr} (h : ∀ e ∈ es, ∀ v, e.bare.sites v = (e.sites v).map Site.bare)
    (visible : List String) : sitesEach visible (es.map Expr.bare) = (sitesEach visible es).map Site.bare := by
  induction es with
  | nil => simp only [List.map_nil, sitesEach]
  | cons e es ih =>
    obtain ⟨he, hes⟩ := List.forall_mem_cons.mp h
    rw [List.map_cons, sitesEach, sitesEach, List.map_append, he, ih hes]

/-- Definitions stand where they stood. -/
theorem Expr.sites_bare (e : Expr) : ∀ visible, e.bare.sites visible = (e.sites visible).map Site.bare := by
  induction e using Expr.induction with
  | int _ _ | name _ _ => exact fun _ => by simp only [Expr.bare, Expr.sites, List.map_nil]
  | ref e _ ih => simpa only [Expr.bare, Expr.sites] using ih
  | call c _ ih =>
    intro visible
    rw [Expr.bare, Call.bare_eq, Expr.sites_call, Expr.sites_call, sitesEach_bare ih]
  | define d _ ih =>
    intro visible
    simp only [Expr.bare, Expr.sites, Definition.sites_eq, List.map_append, List.map_cons, List.map_nil, Site.bare]
    rw [← sitesEach_bare ih, Definition.bare_eq]
  | branch t y n _ iht ihy ihn =>
    intro visible
    have hn : n.toList.map Expr.bare = (n.map Expr.bare).toList := by cases n <;> rfl
    rw [Expr.bare_branch, Call.bare_eq, Expr.sites_branch, Expr.sites_branch, List.map_append, List.map_append, ihy,
      sitesEach_bare iht, ← hn, sitesEach_bare fun e he => ihn e (Option.mem_toList.mp he)]

theorem Definition.sites_bare (d : Definition) (visible : List String) :
    d.bare.sites visible = (d.sites visible).map Site.bare := by
  rw [Definition.sites_eq, Definition.sites_eq, List.map_append, ← sitesEach_bare fun e _ => e.sites_bare,
    Definition.bare_eq]
  simp only [List.map_cons, List.map_nil, Site.bare, Definition.bare_eq]

end SmallLisp
