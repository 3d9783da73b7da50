/-!
# Binary search

The entries of an ascending list are searched by halving. A search ends at an entry that is the one
looked for, or at the position where it would have to be inserted.
-/
namespace SmallLisp

/-- Searches `xs` for `x` from position `lo` up to, not including, `hi`. -/
def search (xs : List Nat) (x lo hi : Nat) (hhi : hi ≤ xs.length) : Except Nat Nat :=
  if hlo : lo < hi then
    let mid := lo + (hi - lo) / 2
    have hmid : mid < xs.length := by omega
    if xs[mid] = x then .ok mid
    else if xs[mid] < x then search xs x (mid + 1) hi hhi
    else search xs x lo mid (Nat.le_of_lt hmid)
  else .error lo
termination_by hi - lo

/-- What a search may answer: the position of an entry that is `x`, or one between the entries below `x`
and those above it. -/
def Found (xs : List Nat) (x : Nat) : Except Nat Nat → Prop
  | .ok i => xs[i]? = some x
  | .error i => i ≤ xs.length ∧ (∀ y ∈ xs.take i, y < x) ∧ ∀ y ∈ xs.drop i, x < y

/-- The entries ascend, those above `x` not always strictly. -/
def AscendsTo (x : Nat) (xs : List Nat) : Prop := xs.Pairwise fun a b => a < b ∨ x < a ∧ x < b

section Entries
variable {xs : List Nat} {x i : Nat} (hs : AscendsTo x xs) (hi : i < xs.length)
include hs

theorem AscendsTo.before (hx : xs[i] ≤ x) : ∀ y ∈ xs.take i, y < xs[i] := by
  intro y hy
  rw [AscendsTo, ← List.take_append_drop i xs, List.drop_eq_getElem_cons hi, List.pairwise_append] at hs
  have hlt := hs.2.2 y hy xs[i] List.mem_cons_self
  omega

theorem AscendsTo.behind (hx : x ≤ xs[i]) : ∀ y ∈ xs.drop (i + 1), x < y := by
  intro y hy
  rw [AscendsTo, ← List.take_append_drop i xs, List.drop_eq_getElem_cons hi, List.pairwise_append,
    List.pairwise_cons] at hs
  have hlt := hs.2.1.1 y hy
  omega

end Entries

/-- A search finds what is to be found, if all entries before `lo` are below it and those from `hi` on above it. -/
theorem search_found {xs : List Nat} {x lo hi : Nat} (hhi : hi ≤ xs.length) (hs : AscendsTo x xs) (hle : lo ≤ hi)
    (hlow : ∀ y ∈ xs.take lo, y < x) (hhigh : ∀ y ∈ xs.drop hi, x < y) :
    Found xs x (search xs x lo hi hhi) := by
  fun_induction search xs x lo hi hhi with
  | case1 lo hi hhi hlo mid hmid heq => exact List.getElem?_eq_some_iff.mpr ⟨hmid, heq⟩
  | case2 lo hi hhi hlo mid hmid hne hlt ih =>
    refine ih (by omega) (fun y hy => ?_) hhigh
    rw [List.take_succ_eq_append_getElem hmid, List.mem_append, List.mem_singleton] at hy
    rcases hy with hy | rfl
    · exact Nat.lt_trans (hs.before hmid (Nat.le_of_lt hlt) y hy) hlt
    · exact hlt
  | case3 lo hi hhi hlo mid hmid hne hlt ih =>
    refine ih (by omega) hlow fun y hy => ?_
    rw [List.drop_eq_getElem_cons hmid, List.mem_cons] at hy
    rcases hy with rfl | hy
    · omega
    · exact hs.behind hmid (by omega) y hy
  | case4 lo hi hhi hlo =>
    obtain rfl : lo = hi := by omega
    exact ⟨hhi, hlow, hhigh⟩

/-- A run of a class is cut off where the entries before the cut are in the class and those behind it are not. -/
theorem length_takeWhile_cut {p : Nat → Bool} {xs : List Nat} {i : Nat} (hi : i ≤ xs.length)
    (hbefore : ∀ y ∈ xs.take i, p y = true) (hbehind : ∀ y ∈ xs.drop i, p y = false) :
    (xs.takeWhile p).length = i := by
  have hstop : (xs.drop i).takeWhile p = [] := by
    cases hrest : xs.drop i with
    | nil => rfl
    | cons y ys =>
      have hy := hbehind y (hrest ▸ List.mem_cons_self)
      exact List.takeWhile_cons_of_neg (by simp [hy])
  rw [← List.take_append_drop i xs, List.takeWhile_append_of_pos hbefore, hstop, List.append_nil,
    List.length_take_of_le hi]

/-- The answers tell how many entries are not above `x`. -/
theorem length_takeWhile_of_found {xs : List Nat} {x i : Nat} (hs : AscendsTo x xs) :
    (Found xs x (.ok i) → (xs.takeWhile (· ≤ x)).length = i + 1) ∧
    (Found xs x (.error i) → (xs.takeWhile (· ≤ x)).length = i) := by
  constructor
  · intro h
    obtain ⟨hi, rfl⟩ := List.getElem?_eq_some_iff.mp h
    refine length_takeWhile_cut hi (fun y hy => ?_) fun y hy => ?_
    · rw [List.take_succ_eq_append_getElem hi, List.mem_append, List.mem_singleton] at hy
      rcases hy with hy | rfl
      · have hlt := hs.before hi (Nat.le_refl _) y hy
        exact decide_eq_true (Nat.le_of_lt hlt)
      · exact decide_eq_true (Nat.le_refl _)
    · have hlt := hs.behind hi (Nat.le_refl _) y hy
      exact decide_eq_false (Nat.not_le_of_lt hlt)
  · rintro ⟨hi, hlow, hhigh⟩
    refine length_takeWhile_cut hi (fun y hy => ?_) fun y hy => ?_
    · exact decide_eq_true (Nat.le_of_lt (hlow y hy))
    · exact decide_eq_false (Nat.not_le_of_lt (hhigh y hy))

end SmallLisp
