import SmallLisp.Proofs.SplitTree
import SmallLisp.Proofs.Meaning

/-! # The value of a split tree

Operands that are integers are combined by the tree of a call as they are by the fold from the left: where the
tree has several operands on the right, they can be moved into parentheses, though a difference then adds
them. A division by zero is met in the tree where the fold meets it.
-/
namespace SmallLisp

namespace ArithOp
variable {op : ArithOp}

theorem fold_append (op : ArithOp) (a : Int64) (xs ys : List Int64) : op.fold a (xs ++ ys) =
    match op.fold a xs with
    | .ok b => (op.fold b ys).mapError (· + xs.length)
    | .error j => .error j := by
  induction xs generalizing a with
  | nil =>
    change op.fold a ys = (op.fold a ys).mapError id
    cases op.fold a ys <;> rfl
  | cons x xs ih =>
    rw [List.cons_append, fold, fold]
    cases op.apply a x with
    | none => rfl
    | some b =>
      simp only [ih]
      cases op.fold b xs with
      | error j => rfl
      | ok c =>
        change ((op.fold c ys).mapError (· + xs.length)).mapError (· + 1) = (op.fold c ys).mapError _
        cases op.fold c ys with
        | error j => exact congrArg Except.error (Nat.add_assoc j xs.length 1)
        | ok d => rfl

theorem fold_singleton (op : ArithOp) (a b : Int64) : op.fold a [b] =
    match op.apply a b with
    | some v => .ok v
    | none => .error 0 := by
  rw [fold]
  cases op.apply a b <;> rfl

/-- Two operands of which the second can be moved into parentheses with the first. -/
theorem exists_apply_onRight (hop : op = add ∨ op = sub ∨ op = mul) (b c : Int64) :
    ∃ v, op.onRight.apply b c = some v ∧ ∀ a, op.apply a v = (op.apply a b).bind (op.apply · c) := by
  rcases hop with rfl | rfl | rfl
  · exact ⟨b + c, rfl, fun a => congrArg some (Int64.add_assoc a b c).symm⟩
  · exact ⟨b + c, rfl, fun a => congrArg some (Int64.sub_sub a b c).symm⟩
  · exact ⟨b * c, rfl, fun a => congrArg some (Int64.mul_assoc a b c).symm⟩

/-- Where operands can be moved into parentheses, or there is only one, they are combined on the right first. -/
theorem exists_fold_onRight {ws : List Int64} (hop : (op = add ∨ op = sub ∨ op = mul) ∨ ws = []) (w : Int64) :
    ∃ b, op.onRight.fold w ws = .ok b ∧ ∀ a, op.fold a (w :: ws) =
      match op.apply a b with
      | some v => .ok v
      | none => .error 0 := by
  induction ws generalizing w with
  | nil => exact ⟨w, rfl, fun a => op.fold_singleton a w⟩
  | cons z zs ih =>
    have hop : op = add ∨ op = sub ∨ op = mul := by simpa using hop
    have htotal : ∀ a b, ∃ v, op.apply a b = some v := by
      intro a b
      rcases hop with rfl | rfl | rfl <;> exact ⟨_, rfl⟩
    obtain ⟨y, hy, hassoc⟩ := exists_apply_onRight hop w z
    obtain ⟨b, hb, hfold⟩ := ih (.inl hop) y
    refine ⟨b, ?_, fun a => ?_⟩
    · rw [fold, hy]
      change (op.onRight.fold y zs).mapError _ = _
      rw [hb]
      rfl
    · obtain ⟨v, hv⟩ := htotal a b
      obtain ⟨c, hc⟩ := htotal a w
      obtain ⟨d, hd⟩ := htotal c z
      have hay : op.apply a y = some d := by rw [hassoc, hc, Option.bind_some, hd]
      have hrest := hfold a
      simp only [fold, hay, hv] at hrest
      simp only [fold, hc, hd, hv, hrest]
      rfl

end ArithOp

namespace Split

/-- The value of an operation on values of which the left one takes `i` operands and the right one takes `j`. At
a zero divisor it is how many operands are taken by then. -/
def combine (op : ArithOp) (i j : Nat) : Except Nat Int64 → Except Nat Int64 → Except Nat Int64
  | .error k, _ => .error k
  | .ok _, .error k => .error (i + k)
  | .ok a, .ok b =>
    match op.apply a b with
    | some v => .ok v
    | none => .error (i + j)

def value : Split Int64 → Except Nat Int64
  | leaf v => .ok v
  | node op l r => combine op l.leaves.length r.leaves.length l.value r.value

/-- The tree of a call has the value of the fold. A zero divisor is met once the operands up to it are there. -/
theorem value_of_ofList? {op : ArithOp} {v : Int64} {vs : List Int64} {t : Split Int64}
    (h : ofList? op (v :: vs) = some t) : t.value = (op.fold v vs).mapError (· + 2) := by
  generalize hxs : v :: vs = xs at h
  induction op, xs using split_induction generalizing v vs t with
  | nil op => cases hxs
  | single op a =>
    cases hxs
    rw [ofList?] at h
    cases h
    rfl
  | cut op left right hl hr hlen ihl ihr =>
    obtain ⟨l, hl'⟩ := ofList?_isSome op left hl
    obtain ⟨r, hr'⟩ := ofList?_isSome op.onRight right hr
    rw [ofList?_append hl hr hlen, hl', hr'] at h
    cases h
    cases left with
    | nil => exact absurd rfl hl
    | cons x xs =>
      cases right with
      | nil => exact absurd rfl hr
      | cons w ws =>
        rw [List.cons_append] at hxs
        obtain ⟨rfl, rfl⟩ := List.cons.inj hxs
        have hassoc : _ ∨ ws = [] := op.assoc_or_singleton hr hlen
        obtain ⟨b, hb, hfold⟩ := ArithOp.exists_fold_onRight hassoc w
        have hleft := ihl rfl hl'
        have hright := ihr rfl hr'
        rw [hb] at hright
        rw [value, hleft, hright, op.fold_append]
        cases op.fold v xs with
        | error j => rfl
        | ok a =>
          change combine op _ _ (.ok a) (.ok b) = ((op.fold a (w :: ws)).mapError _).mapError _
          rw [combine, hfold, leaves_of_ofList? hl', leaves_of_ofList? hr']
          cases hv : op.apply a b with
          | some c => rfl
          | none =>
            have hws : ws = [] := by
              rcases hassoc with hop | hws
              · have hdivides := (ArithOp.apply_eq_none_iff.mp hv).1
                rcases hop with rfl | rfl | rfl <;> simp at hdivides
              · exact hws
            rw [hws]
            exact congrArg Except.error (by simp)

end Split

end SmallLisp
