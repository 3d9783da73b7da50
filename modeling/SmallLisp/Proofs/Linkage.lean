import SmallLisp.Proofs.CompiledModule
import SmallLisp.Proofs.EmissionShape

/-! # Linkage of compiled modules

A compiled module needs nothing from outside: it has one function for each definition of the program, in
the order in which the definitions end, and a call in it is of one of these functions, with as many
arguments as the function has parameters.
-/
namespace SmallLisp
open IR (Instr)

def IR.Module.Linked (m : IR.Module) : Prop :=
  ∀ f ∈ m.functions, ∀ b ∈ f.blocks, ∀ dst callee args, Instr.call dst callee args ∈ b.instrs →
    ∃ g ∈ m.functions, g.name = callee ∧ args.length = g.params.length

section Programs
variable {abi : IR.Abi} {program : List Expr} {m : IR.Module}

/-- The functions have the names and the parameters of the definitions. -/
theorem CompiledProgram.signatures_eq (h : CompiledProgram abi program m) :
    m.functions.map (fun f => (f.name, f.params)) = (definitions program).map (fun d => (d.name, d.params)) := by
  rw [definitions_eq_programSites h.forms, List.map_map, ← List.forall₂_eq_eq_eq, List.forall₂_map_left_iff,
    List.forall₂_map_right_iff]
  exact h.functions.flip.imp fun _ _ hc => Prod.ext hc.name hc.params

theorem CompiledProgram.linked (h : CompiledProgram abi program m) : m.Linked := by
  intro f hf b hb dst callee args hcall
  obtain ⟨site, -, hc⟩ := h.exists_site hf
  obtain ⟨site', g, hg, hc', -, harity⟩ := h.function_of_defines (hc.instr_emitted hb hcall)
  refine ⟨g, List.mem_of_find?_eq_some hg, ?_, ?_⟩
  · simpa using List.find?_some hg
  · rw [hc'.params]
    exact harity.symm

/-- The functions of a compiled module are the definitions of the program in the order in which they end,
under distinct names, and calls lead from one of them to another. -/
theorem compile_linked {name : String} (h : compile abi name program = .ok m) :
    m.functions.map (fun f => (f.name, f.params)) = (definitions program).map (fun d => (d.name, d.params)) ∧
      (m.functions.map (·.name)).Nodup ∧ m.Linked := by
  have hm := compiledProgram_of_compile h
  refine ⟨hm.signatures_eq, ?_, hm.linked⟩
  rw [hm.names_eq]
  exact hm.distinct

end Programs

/-- The program `(def main () (twice 4)) (def twice (n) (def add (m) (+ m m)) (add n))`, where a definition
stands in another. -/
def nestedProgram : List Expr :=
  [.define ⟨"main", [], [.call ⟨"twice", [.int 4 default], default⟩ default], default⟩ default,
    .define ⟨"twice", ["n"], [
      .define ⟨"add", ["m"],
        [.call ⟨"+", [.name "m" default, .name "m" default], default⟩ default], default⟩ default,
      .call ⟨"add", [.name "n" default], default⟩ default], default⟩ default]

/-- A definition comes before the one it stands in, and both calls are of functions of the module. -/
theorem compile_linked_nested : ∃ m, compile .linuxX64 "m" nestedProgram = .ok m ∧
    m.functions.map (fun f => (f.name, f.params)) = [("main", []), ("add", ["m"]), ("twice", ["n"])] ∧
    (m.functions.map (·.name)).Nodup ∧ m.Linked := by
  have hok : (compile .linuxX64 "m" nestedProgram).toOption.map (fun _ => ()) = some () := by decide +kernel
  obtain ⟨m, hm, -⟩ := exists_of_map_toOption hok
  have hdefinitions : (definitions nestedProgram).map (fun d => (d.name, d.params)) =
      [("main", []), ("add", ["m"]), ("twice", ["n"])] := by decide +kernel
  obtain ⟨hsignatures, hnames, hlinked⟩ := compile_linked hm
  exact ⟨m, hm, hsignatures.trans hdefinitions, hnames, hlinked⟩

end SmallLisp
