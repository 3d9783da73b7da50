import SmallLisp.Proofs.BareTrees
import SmallLisp.Proofs.DefinitionOrder

/-! # The code of a definition is its own

The functions that a definition adds to a module, with those of the definitions in it, are made from the
definition and nothing else. Another program has the same functions for it whatever stands around it there,
and where it stands in the text does not matter either: code has no trace of spans.
-/
namespace SmallLisp

def Piece.bare : Piece → Piece
  | .expr e r => .expr e.bare r
  | .spill e slot => .spill e.bare slot
  | .tree t r => .tree (t.map Expr.bare) r
  | .test op x y flag => .test op x.bare y.bare flag
  | .operands es rs => .operands (es.map Expr.bare) rs
  | .body es r => .body (es.map Expr.bare) r

section Spans
variable {abi : IR.Abi} {known : String → Nat → Prop}

/-- An expression without its spans has the same code. -/
theorem Emits.bare {piece : Piece} {σ σ' : Scope Storage} {p p' : Point} {code : IR.Code}
    (h : Emits abi known piece σ p code σ' p') : Emits abi known piece.bare σ p code σ' p' := by
  induction h with
  | int v _ r σ p =>
    rw [Piece.bare, Expr.bare]
    exact .int v _ r σ p
  | name hx _ r p =>
    rw [Piece.bare, Expr.bare]
    exact .name hx _ r p
  | define d _ r σ p =>
    rw [Piece.bare, Expr.bare, Definition.bare_eq]
    exact .define ⟨d.name, d.params, _, _⟩ _ r σ p
  | @arith c _ _ op t _ _ _ _ _ hop ht _ ih =>
    rw [Piece.bare, Expr.bare, Call.bare_eq]
    exact .arith hop (by rw [Split.ofList?_map, ht, Option.map_some]) ih
  | compare hop hargs _ ih =>
    rw [Piece.bare, Expr.bare, Call.bare_eq, hargs]
    exact .compare hop rfl ih
  | write hop hargs _ _ _ ih₁ ih₂ ih₃ =>
    rw [Piece.bare, Expr.bare, Call.bare_eq, hargs]
    simp only [List.map_cons, List.map_nil, Expr.bare]
    exact .write hop rfl ih₁ ih₂ ih₃
  | user hop hσ hknown _ ih =>
    rw [Piece.bare, Expr.bare, Call.bare_eq]
    exact .user hop hσ (by rwa [List.length_map]) ih
  | branch hop hargs _ _ ih₁ ih₂ =>
    rw [Piece.bare, Expr.bare_branch, Call.bare_eq, hargs]
    exact .branch hop rfl ih₁ ih₂
  | branchElse hop hargs _ _ _ ih₁ ih₂ ih₃ =>
    rw [Piece.bare, Expr.bare_branch, Call.bare_eq, hargs]
    exact .branchElse hop rfl ih₁ ih₂ ih₃
  | spill _ ih => exact .spill ih
  | leaf _ ih => exact .leaf ih
  | node _ _ ih₁ ih₂ => exact .node ih₁ ih₂
  | test _ _ ih₁ ih₂ => exact .test ih₁ ih₂
  | noOperands σ p => exact .noOperands σ p
  | operand _ _ ih₁ ih₂ => exact .operand ih₁ ih₂
  | result _ ih => exact .result ih
  | more hes _ _ ih₁ ih₂ => exact .more (by simpa using hes) ih₁ ih₂

theorem Compiled.bare {site : Site} {f : IR.Function} (h : Compiled abi known site f) :
    Compiled abi known site.bare f := by
  obtain ⟨root, code, σ, p, hroot, hem, hblocks⟩ := h.body
  refine ⟨?_, ?_, root, code, σ, p, hroot, ?_, ?_⟩
  · rw [h.name, Site.bare, Definition.bare_eq]
  · rw [h.params, Site.bare, Definition.bare_eq]
  · rw [Site.bare, Definition.bare_eq]
    exact hem.bare
  · rw [hblocks, Site.bare, Definition.bare_eq]
    rfl

variable (abi) in
/-- Which functions a definition becomes can be told from it without its spans. -/
theorem exists_isGrouping_bare :
    ∃ group, IsGrouping abi group ∧ ∀ d d', d'.bare = d.bare → group d' = group d := by
  obtain ⟨group, hgroup⟩ := exists_isGrouping abi
  refine ⟨fun d => group d.bare, fun d visible known fs hfs => ?_, fun d d' h => congrArg group h⟩
  refine hgroup d.bare visible known fs ?_
  rw [Definition.sites_bare, List.forall₂_map_left_iff]
  exact hfs.imp fun _ _ => Compiled.bare

end Spans

/-- Two programs that are compiled have the same functions for a definition that stands at the top of both, up
to its spans: the group that it adds in the one is the group that it adds in the other. -/
theorem compile_group_eq {abi : IR.Abi} {name name' : String} {p q : List Expr} {m m' : IR.Module}
    (hp : compile abi name p = .ok m) (hq : compile abi name' q = .ok m') {d d' : Definition}
    (hd : d ∈ topDefinitions p) (hd' : d' ∈ topDefinitions q) (h : d'.bare = d.bare) :
    ∃ fs, (∀ gs, (d, gs) ∈ compiledGroups abi name p ↔ gs = fs) ∧
      (∀ gs, (d', gs) ∈ compiledGroups abi name' q ↔ gs = fs) ∧ fs <:+: m.functions ∧
      fs <:+: m'.functions := by
  obtain ⟨group, hgroup, hbare⟩ := exists_isGrouping_bare abi
  have hmem {ds : List Definition} {c : Definition} (hc : c ∈ ds) (gs : List IR.Function) :
      (c, gs) ∈ ds.map (fun d => (d, group d)) ↔ gs = group c := by
    constructor
    · intro hm
      obtain ⟨c', -, he⟩ := List.mem_map.mp hm
      cases he
      rfl
    · rintro rfl
      exact List.mem_map_of_mem hc
  have hinfix {ds : List Definition} {c : Definition} (hc : c ∈ ds) : group c <:+: ds.flatMap group := by
    obtain ⟨before, after, rfl⟩ := List.append_of_mem hc
    rw [List.flatMap_append, List.flatMap_cons]
    exact ⟨before.flatMap group, after.flatMap group, List.append_assoc _ _ _⟩
  obtain ⟨hgroups, hfunctions⟩ := compiledGroups_eq hgroup hp
  obtain ⟨hgroups', hfunctions'⟩ := compiledGroups_eq hgroup hq
  rw [hgroups, hgroups', hfunctions, hfunctions']
  refine ⟨group d, hmem hd, ?_, hinfix hd, ?_⟩
  · rw [← hbare d d' h]
    exact hmem hd'
  · rw [← hbare d d' h]
    exact hinfix hd'

/-- The definition `(def twice (n) (def add (m) (+ m m)) (add n))`, read from the offset 15 of a text. -/
def placedTwice : Definition :=
  ⟨"twice", ["n"], [
    .define ⟨"add", ["m"], [
      .call ⟨"+", [.name "m" ⟨46, 47⟩, .name "m" ⟨48, 49⟩], ⟨43, 50⟩⟩ ⟨43, 50⟩],
      ⟨30, 51⟩⟩ ⟨30, 51⟩,
    .call ⟨"add", [.name "n" ⟨57, 58⟩], ⟨52, 59⟩⟩ ⟨52, 59⟩], ⟨15, 60⟩⟩

/-- The program `(def one () 1)` with that definition after it. -/
def neighbourProgram : List Expr :=
  [.define ⟨"one", [], [.int 1 ⟨12, 13⟩], ⟨0, 14⟩⟩ ⟨0, 14⟩, .define placedTwice placedTwice.span]

/-- Beside another function, and compiled for a module of another name, a definition adds the functions that it
adds to `nestedProgram`. -/
theorem compile_group_eq_neighbour : ∃ m m' fs, compile .linuxX64 "m" nestedProgram = .ok m ∧
    compile .linuxX64 "other" neighbourProgram = .ok m' ∧ m.functions.map (·.name) = ["main", "add", "twice"] ∧
    m'.functions.map (·.name) = ["one", "add", "twice"] ∧
    (∀ gs, (placedTwice, gs) ∈ compiledGroups .linuxX64 "other" neighbourProgram ↔ gs = fs) ∧
    fs <:+: m.functions ∧ fs <:+: m'.functions := by
  have hnames : (compile .linuxX64 "m" nestedProgram).toOption.map (·.functions.map (·.name)) =
      some ["main", "add", "twice"] := by decide +kernel
  have hnames' : (compile .linuxX64 "other" neighbourProgram).toOption.map (·.functions.map (·.name)) =
      some ["one", "add", "twice"] := by decide +kernel
  obtain ⟨m, hm, hnames⟩ := exists_of_map_toOption hnames
  obtain ⟨m', hm', hnames'⟩ := exists_of_map_toOption hnames'
  have hbare : placedTwice.bare = (topDefinitions nestedProgram)[1].bare := rfl
  obtain ⟨fs, -, hgroup, hin, hin'⟩ :=
    compile_group_eq hm hm' (List.getElem_mem _) (List.mem_cons_of_mem _ List.mem_cons_self) hbare
  exact ⟨m, m', fs, hm, hm', hnames, hnames', hgroup, hin, hin'⟩

end SmallLisp
