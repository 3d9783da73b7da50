import SmallLisp.Proofs.ReadTrees
import SmallLisp.Proofs.SpanFidelity

/-! # Heads of calls

A plain operand is an identifier or a run of operator characters. The reader takes more: an operator character may
be followed by letters and underscores too. So the heads of the calls that are read are the plain operands, but for
the two words that make other forms, and the names that an operator character starts and a character of another kind
goes on.
-/
namespace SmallLisp

def IsPlainOperand (x : List Char) : Prop := IsIdentifier x ∨ x ≠ [] ∧ ∀ c ∈ x, isOperatorChar c = true

structure IsMixedOperand (x : List Char) : Prop where
  starts : ∃ c cs, x = c :: cs ∧ isOperatorChar c = true
  name : ∀ c ∈ x, isNameChar c = true
  mixed : ∃ c ∈ x, isOperatorChar c = false

/-- The head of a call, at any depth, in a text that is read; the test of a conditional counts as the call it is. -/
def HeadsCall (head : String) : Prop :=
  ∃ source forms c s, parse source = .ok forms ∧ Occurs forms (.call c s) ∧ c.head = head

theorem isOperand_iff {x : List Char} : IsOperand x ↔ IsPlainOperand x ∨ IsMixedOperand x := by
  constructor
  · intro h
    obtain ⟨c, cs, rfl, hc⟩ := h.exists_cons
    rcases h.1 with hlower | hop
    · exact .inl (.inl ⟨hlower, h.2⟩)
    · by_cases hmixed : ∃ d ∈ c :: cs, isOperatorChar d = false
      · exact .inr ⟨⟨c, cs, rfl, hop⟩, h.nameChars, hmixed⟩
      · have hall : ∀ d ∈ c :: cs, isOperatorChar d = true := by
          intro d hd
          cases hkind : isOperatorChar d with
          | true => rfl
          | false => exact absurd ⟨d, hd, hkind⟩ hmixed
        exact .inl (.inr ⟨List.cons_ne_nil _ _, hall⟩)
  · rintro ((h | ⟨hne, hall⟩) | h)
    · exact h.isOperand
    · obtain ⟨c, cs, rfl⟩ := List.exists_cons_of_ne_nil hne
      obtain ⟨hc, hcs⟩ := List.forall_mem_cons.mp hall
      exact ⟨.inr hc, fun d hd => isNameChar_of_isOperatorChar (hcs d hd)⟩
    · obtain ⟨c, cs, rfl, hc⟩ := h.starts
      exact ⟨.inr hc, (List.forall_mem_cons.mp h.name).2⟩

/-- A name that starts with an operator character is neither word that makes another form. -/
theorem IsMixedOperand.ne_word {head : String} (h : IsMixedOperand head.toList) : head ≠ "def" ∧ head ≠ "if" := by
  obtain ⟨c, cs, hx, hc⟩ := h.starts
  constructor
  · rintro rfl
    obtain rfl : 'd' = c := (List.cons_eq_cons.mp hx).1
    cases hc
  · rintro rfl
    obtain rfl : 'i' = c := (List.cons_eq_cons.mp hx).1
    cases hc

/-! ## Heads at any depth -/

theorem Expr.Readable.children {e : Expr} (h : e.Readable) : ∀ c ∈ e.children, c.Readable := by
  cases h with
  | int _ | name _ => exact nofun
  | ref h => exact List.forall_mem_singleton.mpr h
  | call _ hargs => exact hargs
  | define _ _ hbody _ => exact hbody
  | branch hhead hargs hyes hno =>
    have hbranches := List.forall_mem_cons.mpr ⟨hyes, fun e he => hno e (Option.mem_toList.mp he)⟩
    exact List.forall_mem_cons.mpr ⟨.call hhead hargs, hbranches⟩

theorem Occurs.readable {forms : List Expr} {e : Expr} (h : Occurs forms e) (hforms : ∀ f ∈ forms, f.Readable) :
    e.Readable := by
  induction h with
  | form h => exact hforms _ h
  | child _ hc ih => exact ih.children _ hc

/-- A head alone in parentheses is a text that is read. -/
theorem IsCallHead.headsCall {head : String} (h : IsCallHead head) : HeadsCall head := by
  have hne (w : String) (hw : head ≠ w) : head.toList ≠ w.toList := fun he => hw (String.toList_inj.mp he)
  have hclose {o : Nat} : PartAt o [')'] (.items []) [] := .close (b := []) .nil
  have hend : TokenEnds true [')'] := Or.inr (Or.inl rfl)
  have hcall := PartAt.call (o := 0) .nil h.operand (hne _ h.ne_def) (hne _ h.ne_if) hend hclose rfl
  have hforms := FormsAt.cons (b := []) .nil hcall (.nil .nil)
  rw [String.ofList_toList] at hforms
  exact ⟨String.ofList ('(' :: (head.toList ++ [')'])), _, _, _, parse_of_formsAt (by simpa using hforms),
    .form List.mem_cons_self, rfl⟩

theorem headsCall_iff_isCallHead {head : String} : HeadsCall head ↔ IsCallHead head := by
  constructor
  · rintro ⟨source, forms, c, s, hparse, hoccurs, rfl⟩
    cases hoccurs.readable (readable_of_parse hparse) with
    | call hhead _ => exact hhead
  · exact IsCallHead.headsCall

/-- The heads of calls that are read: the plain operands but for two words, and the mixed ones. -/
theorem headsCall_iff (head : String) :
    HeadsCall head ↔ IsPlainOperand head.toList ∧ head ≠ "def" ∧ head ≠ "if" ∨
      IsMixedOperand head.toList := by
  rw [headsCall_iff_isCallHead]
  constructor
  · intro h
    rcases isOperand_iff.mp h.operand with hplain | hmixed
    · exact .inl ⟨hplain, h.ne_def, h.ne_if⟩
    · exact .inr hmixed
  · rintro (⟨hplain, hdef, hif⟩ | hmixed)
    · exact ⟨isOperand_iff.mpr (.inl hplain), hdef, hif⟩
    · exact ⟨isOperand_iff.mpr (.inr hmixed), hmixed.ne_word.1, hmixed.ne_word.2⟩

/-- Not every head is a plain operand: `(+a 1)` is read as a call. -/
theorem headsCall_mixed : parse "(+a 1)" = .ok [.call ⟨"+a", [.int 1 ⟨4, 5⟩], ⟨0, 6⟩⟩ ⟨0, 6⟩] ∧
    ¬ ∀ head, HeadsCall head → IsPlainOperand head.toList := by
  have hread : parse "(+a 1)" = .ok [.call ⟨"+a", [.int 1 ⟨4, 5⟩], ⟨0, 6⟩⟩ ⟨0, 6⟩] := by rfl
  refine ⟨hread, fun hplain => ?_⟩
  rcases hplain "+a" ⟨_, _, _, _, hread, .form List.mem_cons_self, rfl⟩ with hidentifier | ⟨-, hall⟩
  · exact absurd hidentifier.1 (by decide)
  · exact absurd (hall 'a' (by decide)) (by decide)

end SmallLisp
