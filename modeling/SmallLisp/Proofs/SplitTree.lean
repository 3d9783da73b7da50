import SmallLisp.Compile.Split

/-! # The tree of an arithmetic call

The operands are the leaves of the tree in their order, and a call with operands has a tree. The shape
depends only on the operation and on the number of operands.
-/
namespace SmallLisp.Split
variable {α β : Type}

def map (f : α → β) : Split α → Split β
  | leaf a => leaf (f a)
  | node op l r => node op (l.map f) (r.map f)

theorem leaves_map (f : α → β) (t : Split α) : (t.map f).leaves = t.leaves.map f := by
  induction t with
  | leaf a => rfl
  | node op l r ihl ihr => rw [map, leaves, ihl, ihr, leaves, List.map_append]

/-- How a tree over at least two operands is put together. -/
theorem ofList?_cons_cons (op : ArithOp) (a b : α) (xs : List α) : ofList? op (a :: b :: xs) =
    match ofList? op ((a :: b :: xs).take (op.leftCount (xs.length + 2))),
      ofList? op.onRight ((a :: b :: xs).drop (op.leftCount (xs.length + 2))) with
    | some l, some r => some (node op l r)
    | _, _ => none := by
  rw [ofList?]
  rfl

/-- Induction over the lists that `ofList?` is applied to. -/
theorem split_induction {P : ArithOp → List α → Prop} (nil : ∀ op, P op [])
    (single : ∀ op a, P op [a])
    (cut : ∀ op left right, left ≠ [] → right ≠ [] → left.length = op.leftCount (left ++ right).length →
      P op left → P op.onRight right → P op (left ++ right)) (op : ArithOp) (xs : List α) : P op xs := by
  induction h : xs.length using Nat.strongRecOn generalizing op xs with
  | ind n ih =>
    match xs with
    | [] => exact nil op
    | [a] => exact single op a
    | a :: b :: rest =>
      have hn : 2 ≤ n := by simp [← h]
      have hpos := op.leftCount_pos hn
      have hlt := op.leftCount_lt hn
      have hcut := cut op ((a :: b :: rest).take (op.leftCount n)) ((a :: b :: rest).drop (op.leftCount n))
      have hleft : ((a :: b :: rest).take (op.leftCount n)).length = op.leftCount n := by
        rw [List.length_take, h]
        omega
      have hright : ((a :: b :: rest).drop (op.leftCount n)).length = n - op.leftCount n := by
        rw [List.length_drop, h]
      rw [List.take_append_drop, h] at hcut
      refine hcut ?_ ?_ hleft (ih _ (by omega) _ _ hleft) (ih _ (by omega) _ _ hright)
      · exact List.ne_nil_of_length_pos (by omega)
      · exact List.ne_nil_of_length_pos (by omega)

/-- The tree over operands that are cut in two. -/
theorem ofList?_append {op : ArithOp} {left right : List α} (hl : left ≠ []) (hr : right ≠ [])
    (hlen : left.length = op.leftCount (left ++ right).length) : ofList? op (left ++ right) =
      match ofList? op left, ofList? op.onRight right with
      | some l, some r => some (node op l r)
      | _, _ => none := by
  match hxs : left ++ right with
  | [] => exact absurd (List.append_eq_nil_iff.mp hxs).1 hl
  | [a] =>
    have h := congrArg List.length hxs
    have hpos := List.length_pos_iff.mpr hl
    have hpos' := List.length_pos_iff.mpr hr
    simp at h
    omega
  | a :: b :: rest =>
    rw [ofList?_cons_cons]
    have hcount : op.leftCount (rest.length + 2) = left.length := by rw [hlen, hxs]; rfl
    rw [hcount, ← hxs, List.take_left, List.drop_left]

theorem ofList?_map (f : α → β) (op : ArithOp) (xs : List α) :
    ofList? op (xs.map f) = (ofList? op xs).map (map f) := by
  induction op, xs using split_induction with
  | nil op => rw [List.map_nil, ofList?, ofList?]; rfl
  | single op a => rw [List.map_singleton, ofList?, ofList?]; rfl
  | cut op left right hl hr hlen ihl ihr =>
    rw [ofList?_append hl hr hlen, List.map_append, ofList?_append (by simpa using hl) (by simpa using hr)
      (by simpa using hlen), ihl, ihr]
    cases ofList? op left <;> cases ofList? op.onRight right <;> rfl

/-- A call with operands has a tree. -/
theorem ofList?_isSome (op : ArithOp) (xs : List α) (h : xs ≠ []) : ∃ t, ofList? op xs = some t := by
  induction op, xs using split_induction with
  | nil op => exact absurd rfl h
  | single op a => exact ⟨leaf a, by rw [ofList?]⟩
  | cut op left right hl hr hlen ihl ihr =>
    obtain ⟨l, hl'⟩ := ihl hl
    obtain ⟨r, hr'⟩ := ihr hr
    exact ⟨node op l r, by rw [ofList?_append hl hr hlen, hl', hr']⟩

/-- The operands are the leaves from left to right. -/
theorem leaves_of_ofList? {op : ArithOp} {xs : List α} {t : Split α} (h : ofList? op xs = some t) :
    t.leaves = xs := by
  induction op, xs using split_induction generalizing t with
  | nil op =>
    rw [ofList?] at h
    cases h
  | single op a =>
    rw [ofList?] at h
    cases h
    rfl
  | cut op left right hl hr hlen ihl ihr =>
    obtain ⟨l, hl'⟩ := ofList?_isSome op left hl
    obtain ⟨r, hr'⟩ := ofList?_isSome op.onRight right hr
    rw [ofList?_append hl hr hlen, hl', hr'] at h
    cases h
    rw [leaves, ihl hl', ihr hr']

/-- Trees of one call over two lists of operands are those of the operands in pairs. -/
theorem exists_zip {op : ArithOp} {xs : List α} {ys : List β} {t : Split α} (h : ofList? op xs = some t)
    (hlen : xs.length = ys.length) : ∃ z : Split (α × β), z.map Prod.fst = t ∧
      ofList? op ys = some (z.map Prod.snd) ∧ z.leaves = xs.zip ys := by
  have hfst : (xs.zip ys).map Prod.fst = xs := List.map_fst_zip (Nat.le_of_eq hlen)
  have hsnd : (xs.zip ys).map Prod.snd = ys := List.map_snd_zip (Nat.le_of_eq hlen.symm)
  rw [← hfst, ofList?_map] at h
  obtain ⟨z, hz, rfl⟩ := Option.map_eq_some_iff.mp h
  refine ⟨z, rfl, ?_, leaves_of_ofList? hz⟩
  rw [← hsnd, ofList?_map, hz]
  rfl

end SmallLisp.Split
