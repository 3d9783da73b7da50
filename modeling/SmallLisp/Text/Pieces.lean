/-!
# Cutting a text

A text is cut at separators, or where a run of characters of a class stops.
-/
namespace SmallLisp

/-- The runs of characters between separators; a text without a separator is one run. -/
def pieces (isSeparator : Char → Bool) : List Char → List (List Char)
  | [] => [[]]
  | c :: cs =>
    if isSeparator c then [] :: pieces isSeparator cs
    else match pieces isSeparator cs with
      | [] => [[c]]
      | p :: ps => (c :: p) :: ps

theorem pieces_ne_nil (isSeparator : Char → Bool) (cs : List Char) : pieces isSeparator cs ≠ [] := by
  cases cs with
  | nil => simp [pieces]
  | cons c cs =>
    rw [pieces]
    split
    · simp
    · split <;> simp

/-- Putting a separator between the pieces gives back the text that was cut at it. -/
theorem intercalate_pieces (sep : Char) (cs : List Char) :
    [sep].intercalate (pieces (· == sep) cs) = cs := by
  induction cs with
  | nil => rfl
  | cons c cs ih =>
    obtain ⟨p, ps, h⟩ := List.exists_cons_of_ne_nil (pieces_ne_nil (· == sep) cs)
    rw [pieces, h]
    rw [h] at ih
    by_cases hc : c = sep
    · subst hc
      simpa [List.intercalate] using ih
    · cases ps <;> simp_all [List.intercalate]

/-- Cutting at one character. -/
theorem pieces_eq_splitOn (sep : Char) (cs : List Char) : pieces (· == sep) cs = cs.splitOn sep := by
  induction cs with
  | nil => rfl
  | cons c cs ih =>
    rw [pieces, ih, List.splitOn_cons_eq_if_modifyHead]
    obtain ⟨part, rest, h⟩ := List.exists_cons_of_ne_nil (List.splitOn_ne_nil sep cs)
    rw [h]
    rfl

/-- There is no separator inside a piece. -/
theorem not_mem_of_mem_pieces {sep : Char} {cs part : List Char} (h : part ∈ pieces (· == sep) cs) :
    sep ∉ part := by
  induction cs generalizing part with
  | nil => simp_all [pieces]
  | cons c cs ih =>
    obtain ⟨first, rest, hcs⟩ := List.exists_cons_of_ne_nil (pieces_ne_nil (· == sep) cs)
    rw [pieces, hcs] at h
    rw [hcs] at ih
    by_cases hc : c = sep
    · simp only [hc, beq_self_eq_true, if_true, List.mem_cons] at h
      rcases h with rfl | h
      · simp
      · exact ih (List.mem_cons.mpr h)
    · simp only [beq_eq_false_iff_ne.mpr hc, Bool.false_eq_true, if_false, List.mem_cons] at h
      rcases h with rfl | h
      · simpa [Ne.symm hc] using ih List.mem_cons_self
      · exact ih (List.mem_cons_of_mem _ h)

/-- A text that is cut at a separator has one piece more than it has separators. -/
theorem length_splitOn {α : Type} [BEq α] [LawfulBEq α] (x : α) (xs : List α) :
    (xs.splitOn x).length = xs.count x + 1 := by
  induction xs with
  | nil => simp
  | cons y ys ih =>
    rw [List.splitOn_cons_eq_if_modifyHead, List.count_cons]
    split
    · rw [List.length_cons, ih]
    · rw [List.length_modifyHead, ih, Nat.add_zero]

/-- A run of a class stops before a text. -/
def Stops (p : Char → Bool) (text : List Char) : Prop := ∀ c ∈ text.head?, p c = false

theorem stops_cons {p : Char → Bool} {c : Char} (h : p c = false) (text : List Char) : Stops p (c :: text) := by
  intro d hd
  obtain rfl : c = d := by simpa using hd
  exact h

/-- A run ends where it stops. -/
theorem takeWhile_run {p : Char → Bool} {run text : List Char} (hrun : ∀ c ∈ run, p c = true) (h : Stops p text) :
    (run ++ text).takeWhile p = run := by
  have hstop : text.takeWhile p = [] := by
    cases text with
    | nil => rfl
    | cons c cs => exact List.takeWhile_cons_of_neg (by simp [h c rfl])
  rw [List.takeWhile_append_of_pos hrun, hstop, List.append_nil]

theorem dropWhile_run {p : Char → Bool} {run text : List Char} (hrun : ∀ c ∈ run, p c = true) (h : Stops p text) :
    (run ++ text).dropWhile p = text := by
  have hstop : text.dropWhile p = text := by
    cases text with
    | nil => rfl
    | cons c cs => exact List.dropWhile_cons_of_neg (by simp [h c rfl])
  rw [List.dropWhile_append_of_pos hrun, hstop]

end SmallLisp
