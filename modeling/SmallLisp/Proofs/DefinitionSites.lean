import SmallLisp.Syntax.Expr

/-! # The definitions of a program

Definitions may stand anywhere in a program, also in the bodies of others. They are listed in the order
in which they end, so that a definition comes after those in its body.
-/
namespace SmallLisp

structure Site where
  definition : Definition
  visible : List String

mutual

/-- The definitions in an expression, where the body around it can see the functions `visible`. A
definition adds its own name to what its body can see. -/
def Expr.sites (visible : List String) : Expr → List Site
  | .int .. | .name .. => []
  | .ref target _ => target.sites visible
  | .call ⟨_, args, _⟩ _ => sitesEach visible args
  | .define d _ => d.sites (d.name :: visible)
  | .branch ⟨_, args, _⟩ yes no _ => sitesEach visible args ++ yes.sites visible ++
    match no with
    | some e => e.sites visible
    | none => []

def Definition.sites (visible : List String) : Definition → List Site
  | ⟨name, params, body, span⟩ => sitesEach visible body ++ [⟨⟨name, params, body, span⟩, visible⟩]

def sitesEach (visible : List String) : List Expr → List Site
  | [] => []
  | e :: es => e.sites visible ++ sitesEach visible es

end

def definitions (program : List Expr) : List Definition :=
  (sitesEach [] program).map (·.definition)

theorem Definition.sites_eq (d : Definition) (visible : List String) :
    d.sites visible = sitesEach visible d.body ++ [⟨d, visible⟩] := by
  cases d
  simp only [Definition.sites]

theorem Expr.sites_call (visible : List String) (c : Call) (span : Span) :
    (Expr.call c span).sites visible = sitesEach visible c.args := by
  cases c
  simp only [Expr.sites]

theorem Expr.sites_branch (visible : List String) (test : Call) (yes : Expr) (no : Option Expr)
    (span : Span) : (Expr.branch test yes no span).sites visible =
      sitesEach visible test.args ++ yes.sites visible ++ sitesEach visible no.toList := by
  cases test
  cases no <;> simp only [Expr.sites, Option.toList_none, Option.toList_some, sitesEach, List.append_nil]

theorem mem_sitesEach {visible : List String} {es : List Expr} {site : Site} :
    site ∈ sitesEach visible es ↔ ∃ e ∈ es, site ∈ e.sites visible := by
  induction es with
  | nil => simp [sitesEach]
  | cons e es ih => simp [sitesEach, ih]

theorem map_definition_sitesEach {v w : List String} {es : List Expr}
    (h : ∀ e ∈ es, ∀ v w, (e.sites v).map (·.definition) = (e.sites w).map (·.definition)) :
    (sitesEach v es).map (·.definition) = (sitesEach w es).map (·.definition) := by
  induction es with
  | nil => simp only [sitesEach]
  | cons e es ih =>
    rw [sitesEach, sitesEach, List.map_append, List.map_append, h e List.mem_cons_self v w,
      ih fun x hx => h x (List.mem_cons_of_mem _ hx)]

/-- Which definitions there are does not depend on what they can see. -/
theorem Expr.map_definition_sites (e : Expr) : ∀ v w : List String,
    (e.sites v).map (·.definition) = (e.sites w).map (·.definition) := by
  induction e using Expr.induction with
  | int _ _ | name _ _ => exact fun _ _ => rfl
  | ref e _ ih => simpa only [Expr.sites] using ih
  | call c _ ih =>
    intro v w
    simpa only [Expr.sites_call] using map_definition_sitesEach ih
  | define d _ ih =>
    intro v w
    simp only [Expr.sites, Definition.sites_eq, List.map_append,
      map_definition_sitesEach (w := d.name :: w) ih, List.map_cons, List.map_nil]
  | branch t y n _ iht ihy ihn =>
    intro v w
    simp only [Expr.sites_branch, List.map_append, map_definition_sitesEach (w := w) iht, ihy v w,
      map_definition_sitesEach (w := w) fun e he => ihn e (Option.mem_toList.mp he)]

theorem Definition.map_definition_sites (d : Definition) (v w : List String) :
    (d.sites v).map (·.definition) = (d.sites w).map (·.definition) := by
  rw [Definition.sites_eq, Definition.sites_eq, List.map_append, List.map_append,
    map_definition_sitesEach (w := w) fun e _ => e.map_definition_sites]
  rfl

end SmallLisp
