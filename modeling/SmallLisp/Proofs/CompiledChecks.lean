import SmallLisp.Proofs.CompiledModule
import SmallLisp.Proofs.EmissionChecks

/-! # Compiled functions pass verification

A compiled function consists of code: its parameters are put into slots, and its body follows. Each part
passes the checks, so every function of a compiled module does.
-/
namespace SmallLisp
open IR (Reg BlockId Operand Instr Item Code)

section Parameters
variable (first : Nat) (xs : List String)

@[simp] theorem ids_parameterCode : (parameterCode first xs).ids = [] := by
  induction xs generalizing first with
  | nil => rfl
  | cons x xs ih => exact ih (first + 1)

@[simp] theorem labels_parameterCode : (parameterCode first xs).labels = [] := by
  induction xs generalizing first with
  | nil => rfl
  | cons x xs ih => exact ih (first + 1)

@[simp] theorem edges_parameterCode (id : BlockId) : (parameterCode first xs).edges id = [] := by
  induction xs generalizing first with
  | nil => rfl
  | cons x xs ih => exact ih (first + 1)

@[simp] theorem last_parameterCode (id : BlockId) : (parameterCode first xs).last id = id := by
  induction xs generalizing first with
  | nil => rfl
  | cons x xs ih => exact ih (first + 1)

theorem mem_dsts_parameterCode {r : Reg} :
    r ∈ (parameterCode first xs).dsts ↔ first ≤ r.index ∧ r.index < first + xs.length := by
  induction xs generalizing first with
  | nil => simp [parameterCode]
  | cons x xs ih =>
    rcases r with ⟨i⟩
    simp [parameterCode, ih]
    omega

/-- A name in a scope with parameters is one of them or was in the scope before. -/
theorem lookup?_parameterScope (σ : Scope Storage) (x : String) :
    (x ∈ xs ∧ ∃ r : Reg, (parameterScope σ first xs).lookup? x = some (.slot r) ∧ first ≤ r.index ∧
      r.index < first + xs.length) ∨
    (parameterScope σ first xs).lookup? x = σ.lookup? x ∧ x ∉ xs := by
  induction xs generalizing first σ with
  | nil => exact .inr ⟨rfl, List.not_mem_nil⟩
  | cons y ys ih =>
    rcases ih (first + 1) (σ.define y (.slot ⟨first⟩)) with ⟨hx, r, hr, h₁, h₂⟩ | ⟨he, hn⟩
    · exact .inl ⟨List.mem_cons_of_mem _ hx, r, hr, by omega, by rw [List.length_cons]; omega⟩
    · by_cases hxy : x = y
      · left
        rw [hxy, Scope.lookup?_define_self] at he
        exact ⟨hxy ▸ List.mem_cons_self, ⟨first⟩, hxy ▸ he, Nat.le_refl _, by simp⟩
      · right
        rw [Scope.lookup?_define_ne _ _ hxy] at he
        exact ⟨he, by simpa [hxy] using hn⟩

variable {first xs}

/-- Putting parameters of the function into slots passes the checks. -/
theorem parameterCode_checked {f : IR.Function} {id : BlockId} {late : Bool} {defined : List Reg}
    (hd : ∀ r ∈ defined, r.index < first) (hxs : ∀ x ∈ xs, x ∈ f.params) :
    (parameterCode first xs).Checked f id late defined := by
  induction xs generalizing first late defined with
  | nil => exact trivial
  | cons x xs ih =>
    have hfirst : (⟨first⟩ : Reg) ∉ defined := fun hm => Nat.lt_irrefl _ (hd _ hm)
    refine ⟨instr_checked rfl (by simp) (by simp) (by simpa using hfirst), ⟨?_, ?_, ?_, ?_⟩, ih ?_ ?_⟩
    · intro r incoming hphi
      cases hphi
    · simpa using hxs x List.mem_cons_self
    · simp
    · intro r hr
      cases hr
    · intro r hr
      rcases List.mem_cons.mp hr with rfl | hr
      · exact Nat.lt_succ_self first
      · exact Nat.lt_succ_of_lt (hd r hr)
    · exact fun y hy => hxs y (List.mem_cons_of_mem _ hy)

end Parameters

section Functions
variable {abi : IR.Abi} {known : String → Nat → Prop} {site : Site} {f : IR.Function}

theorem OnlyFunctions.no_slot {root : Scope Storage} {visible : List String}
    (h : OnlyFunctions root visible) (x : String) (r : Reg) : root.lookup? x ≠ some (.slot r) := by
  rw [h x]
  split <;> exact nofun

/-- Which code a compiled function consists of. -/
theorem Compiled.consists (h : Compiled abi known site f) : ∃ root code σ p,
    OnlyFunctions root site.visible ∧
    Emits abi known (.body site.definition.body ⟨site.definition.arity + 1⟩)
      (parameterScope root.push 1 site.definition.params)
      ⟨site.definition.arity + 2, 1, 1, ⟨0⟩⟩ code σ p ∧
    f.Consists (.ret (.reg ⟨site.definition.arity + 1⟩))
      (parameterCode 1 site.definition.params ++ code) := by
  obtain ⟨root, code, σ, p, hroot, hem, hblocks⟩ := h.body
  refine ⟨root, code, σ, p, hroot, hem, hblocks, ?_⟩
  rw [IR.Code.ids_append, ids_parameterCode, List.nil_append, List.nodup_cons]
  refine ⟨fun hm => ?_, hem.nodup_ids⟩
  exact Nat.not_succ_le_zero 0 (hem.mem_ids hm).1

/-- What is given to the body of a function. -/
theorem given_body {root : Scope Storage} {visible : List String} (hroot : OnlyFunctions root visible)
    (d : Definition) : Given [⟨d.arity + 1⟩] (parameterScope root.push 1 d.params)
      ⟨d.arity + 2, 1, 1, ⟨0⟩⟩ ((parameterCode 1 d.params).dsts.reverse ++ []) where
  slots x r hx := by
    rcases lookup?_parameterScope 1 d.params root.push x with ⟨-, r', hr', h₁, h₂⟩ | ⟨he, -⟩
    · rw [hr'] at hx
      cases hx
      simpa using (mem_dsts_parameterCode 1 d.params).mpr ⟨h₁, h₂⟩
    · rw [he] at hx
      exact absurd hx (hroot.push.no_slot x r)
  below r hr := by
    simp only [List.append_nil, List.mem_append, List.mem_reverse, mem_dsts_parameterCode,
      List.mem_singleton] at hr
    rcases hr with ⟨_, hr⟩ | rfl
    · have : d.arity = d.params.length := rfl
      change r.index < d.arity + 2
      omega
    · exact Nat.lt_succ_self _
  new r hr hm := by
    rw [List.mem_singleton] at hr
    simp only [List.append_nil, List.mem_reverse, mem_dsts_parameterCode, hr] at hm
    have : d.arity = d.params.length := rfl
    omega
  distinct := List.nodup_singleton _

theorem Compiled.verify_ok (h : Compiled abi known site f) : f.verify = .ok () := by
  obtain ⟨root, code, σ, p, hroot, hem, hf⟩ := h.consists
  have hg : Given ((Piece.body site.definition.body ⟨site.definition.arity + 1⟩).targets ++ []) _ _ _ :=
    given_body hroot site.definition
  have hresult := hem.results_subset (r := ⟨site.definition.arity + 1⟩) (by simp)
  refine hf.verify_ok ?_ ?_ rfl ?_ ?_
  · rw [IR.Code.labels_append, labels_parameterCode, List.nil_append, List.nodup_cons]
    refine ⟨fun hm => ?_, hem.nodup_labels⟩
    obtain ⟨n, hn, -⟩ := hem.mem_labels hm
    exact not_isLabel_entry n hn
  · intro e he
    rw [IR.Code.edges_append, edges_parameterCode, List.nil_append] at he
    rw [IR.Code.ids_append, ids_parameterCode]
    exact hem.mem_ids_of_edge he
  · refine (parameterCode_checked (by simp) (by simp [h.params])).append fun late => ?_
    rw [last_parameterCode]
    refine hem.checked hg (fun e he => ?_) late
    refine hf.hasEdge_of_mem_edges ?_
    rw [IR.Code.edges_append, last_parameterCode]
    exact List.mem_append_right _ he
  · simpa using Or.inr hresult

/-- Every function of a compiled module passes verification. -/
theorem CompiledProgram.verify_ok {program : List Expr} {m : IR.Module}
    (h : CompiledProgram abi program m) : m.verify = .ok () := by
  refine IR.forM_ok fun f hf => ?_
  obtain ⟨site, -, hc⟩ := h.exists_site hf
  exact hc.verify_ok

end Functions
end SmallLisp
