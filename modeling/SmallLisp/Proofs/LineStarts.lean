import Mathlib.Data.List.DropRight
import SmallLisp.Source.LineTable

/-! # Lines around a place

A text is cut at a place into what stands before it and behind it. The newlines before it number the line of the
place, and the characters since the last of them are the start of that line; the line ends before the first newline
behind the place. The table of line starts finds the same, as long as the offsets are within the limit.
-/
namespace SmallLisp

def inLine (c : Char) : Bool := c != '\n'

section Starts
variable (offset : Nat) (cs ds : List Char)

theorem startsAfterNewlines_append : startsAfterNewlines offset (cs ++ ds) =
    startsAfterNewlines offset cs ++ startsAfterNewlines (offset + byteLength cs) ds := by
  induction cs generalizing offset with
  | nil => rfl
  | cons c cs ih =>
    rw [List.cons_append, startsAfterNewlines, startsAfterNewlines, ih, byteLength_cons, Nat.add_assoc]
    split <;> rfl

theorem length_startsAfterNewlines : (startsAfterNewlines offset cs).length = cs.count '\n' := by
  induction cs generalizing offset with
  | nil => rfl
  | cons c cs ih =>
    rw [startsAfterNewlines, List.count_cons]
    split
    case isTrue h => rw [List.length_cons, ih, if_pos (beq_iff_eq.mpr h)]
    case isFalse h => rw [ih, if_neg (by simpa using h), Nat.add_zero]

/-- Lines start behind the newline before them, and no later than the text ends. -/
theorem startsAfterNewlines_bounds : ∀ start ∈ startsAfterNewlines offset cs,
    min (offset + 1) maxOffset ≤ start ∧ start ≤ offset + byteLength cs := by
  induction cs generalizing offset with
  | nil => exact nofun
  | cons c cs ih =>
    have hpos := c.utf8Size_pos
    have htail : ∀ start ∈ startsAfterNewlines (offset + c.utf8Size) cs,
        min (offset + 1) maxOffset ≤ start ∧ start ≤ offset + byteLength (c :: cs) := by
      intro start hstart
      obtain ⟨hlow, hhigh⟩ := ih _ start hstart
      rw [byteLength_cons]
      omega
    rw [startsAfterNewlines]
    split
    · refine List.forall_mem_cons.mpr ⟨?_, htail⟩
      rw [byteLength_cons]
      omega
    · exact htail

/-- The starts ascend as far as `x`, which is below the limit if the text is not. -/
theorem startsAfterNewlines_ascends {x : Nat} (h : x < maxOffset ∨ offset + byteLength cs < maxOffset) :
    AscendsTo x (startsAfterNewlines offset cs) := by
  induction cs generalizing offset with
  | nil => exact .nil
  | cons c cs ih =>
    rw [byteLength_cons] at h
    have htail := ih (offset + c.utf8Size) (by omega)
    rw [startsAfterNewlines]
    split
    · refine List.pairwise_cons.mpr ⟨fun start hstart => ?_, htail⟩
      have hbounds := startsAfterNewlines_bounds (offset + c.utf8Size) cs start hstart
      omega
    · exact htail

/-- The first line that starts behind a place, if there is one. -/
theorem head?_startsAfterNewlines : (startsAfterNewlines offset cs).head? =
    if '\n' ∈ cs then some (min (offset + byteLength (cs.takeWhile inLine) + 1) maxOffset) else none := by
  induction cs generalizing offset with
  | nil => rfl
  | cons c cs ih =>
    rw [startsAfterNewlines]
    by_cases hc : c = '\n'
    · subst hc
      rw [if_pos rfl, if_pos List.mem_cons_self]
      rfl
    · have hmem : '\n' ∈ c :: cs ↔ '\n' ∈ cs := by simp [Ne.symm hc]
      have hline : inLine c = true := bne_iff_ne.mpr hc
      rw [if_neg hc, ih, List.takeWhile_cons_of_pos hline, byteLength_cons]
      simp only [hmem, Nat.add_assoc]

end Starts

theorem getLastD_startsAfterNewlines (cs : List Char) :
    (startsAfterNewlines 0 cs).getLastD 0 = min (byteLength (cs.rdropWhile inLine)) maxOffset := by
  induction cs using List.reverseRecOn with
  | nil => rfl
  | append_singleton cs c ih =>
    rw [startsAfterNewlines_append, List.rdropWhile_concat, Nat.zero_add]
    by_cases hc : c = '\n'
    · subst hc
      have hline : ¬ inLine '\n' = true := Bool.false_ne_true
      rw [startsAfterNewlines, if_pos rfl, startsAfterNewlines, if_neg hline, List.getLastD_concat, byteLength_append]
      rfl
    · have hline : inLine c = true := bne_iff_ne.mpr hc
      rw [startsAfterNewlines, if_neg hc, startsAfterNewlines, List.append_nil, if_pos hline, ih]

namespace LineTable
variable {source : String} {before after : List Char}

/-- The search finds as many lines as start at or before an offset. -/
theorem lineAt_eq_length {offset : Nat} (h : offset < maxOffset ∨ byteLength source.toList < maxOffset) :
    (ofText source).lineAt offset = ((ofText source).starts.takeWhile (· ≤ offset)).length := by
  have hs : AscendsTo offset (ofText source).starts := by
    refine List.pairwise_cons.mpr ⟨fun start hstart => ?_, ?_⟩
    · have hlow := (startsAfterNewlines_bounds 0 source.toList start hstart).1
      have hpos : 0 < maxOffset := by decide
      omega
    · exact startsAfterNewlines_ascends 0 source.toList (by omega)
  have hfound : Found _ offset (search (ofText source).starts offset 0 _ (Nat.le_refl _)) :=
    search_found _ hs (Nat.zero_le _) (by simp) (by simp)
  have hpos : 0 < ((ofText source).starts.takeWhile (· ≤ offset)).length := by simp [ofText]
  rw [lineAt]
  split
  case h_1 i hi =>
    rw [hi] at hfound
    exact ((length_takeWhile_of_found hs).1 hfound).symm
  case h_2 i hi =>
    rw [hi] at hfound
    have hlength := (length_takeWhile_of_found hs).2 hfound
    omega

theorem starts_ofText (h : source.toList = before ++ after) : (ofText source).starts =
    (0 :: startsAfterNewlines 0 before) ++ startsAfterNewlines (byteLength before) after := by
  rw [ofText, h, startsAfterNewlines_append, Nat.zero_add, List.cons_append]

/-- A place is on the line with as many newlines before it. -/
theorem lineAt_ofText (h : source.toList = before ++ after) (hlimit : byteLength before < maxOffset) :
    (ofText source).lineAt (byteLength before) = before.count '\n' + 1 := by
  have hbefore : ∀ start ∈ 0 :: startsAfterNewlines 0 before, decide (start ≤ byteLength before) = true := by
    refine List.forall_mem_cons.mpr ⟨by simp, fun start hstart => ?_⟩
    have hbounds := (startsAfterNewlines_bounds 0 before start hstart).2
    rw [decide_eq_true_iff]
    omega
  have hafter : (startsAfterNewlines (byteLength before) after).takeWhile (· ≤ byteLength before) = [] := by
    cases hstarts : startsAfterNewlines (byteLength before) after with
    | nil => rfl
    | cons start starts =>
      have hlow := (startsAfterNewlines_bounds (byteLength before) after start (hstarts ▸ List.mem_cons_self)).1
      refine List.takeWhile_cons_of_neg ?_
      rw [decide_eq_true_iff]
      omega
  rw [lineAt_eq_length (.inl hlimit), starts_ofText h, List.takeWhile_append_of_pos hbefore, hafter,
    List.append_nil, List.length_cons, length_startsAfterNewlines]

theorem lineStart?_ofText (h : source.toList = before ++ after) (hlimit : byteLength before < maxOffset) :
    (ofText source).lineStart? (before.count '\n' + 1) = some (byteLength (before.rdropWhile inLine)) := by
  have hlast := getLastD_startsAfterNewlines before
  have hle : byteLength (before.rdropWhile inLine) ≤ byteLength before := by
    conv_rhs => rw [← List.rdropWhile_append_rtakeWhile (p := inLine) (l := before), byteLength_append]
    exact Nat.le_add_right _ _
  rw [Nat.min_eq_left (by omega)] at hlast
  rw [lineStart?, starts_ofText h, List.getElem?_append_left (by simp [length_startsAfterNewlines]), ← hlast,
    ← length_startsAfterNewlines 0, List.getLastD_eq_getLast?, ← List.getLast?_cons, List.getLast?_eq_getElem?]
  rfl

theorem lineStart?_next (h : source.toList = before ++ after) :
    (ofText source).lineStart? (before.count '\n' + 2) = if '\n' ∈ after then
      some (min (byteLength before + byteLength (after.takeWhile inLine) + 1) maxOffset) else none := by
  rw [lineStart?, starts_ofText h, List.getElem?_append_right (by simp [length_startsAfterNewlines]),
    ← head?_startsAfterNewlines, List.head?_eq_getElem?]
  simp [length_startsAfterNewlines]

theorem byteLength_line (before : List Char) :
    byteLength before = byteLength (before.rdropWhile inLine) + byteLength (before.rtakeWhile inLine) := by
  rw [← byteLength_append, List.rdropWhile_append_rtakeWhile]

theorem toList_eq_line (h : source.toList = before ++ after) :
    source.toList = before.rdropWhile inLine ++ (before.rtakeWhile inLine ++ after) := by
  rw [← List.append_assoc, List.rdropWhile_append_rtakeWhile, h]

/-- The column of a place counts the characters of its line before it. -/
theorem position_ofText (h : source.toList = before ++ after) (hlimit : byteLength before < maxOffset) :
    (ofText source).position source (byteLength before) =
      (before.count '\n' + 1, (before.rtakeWhile inLine).length + 1) := by
  have hline := byteLength_line before
  have hcolumn : (before.rtakeWhile inLine).length ≤ byteLength (before.rtakeWhile inLine) :=
    length_le_byteLength _
  have hstop : min (byteLength before) (byteLength source.toList) =
      byteLength (before.rdropWhile inLine) + byteLength (before.rtakeWhile inLine) := by
    rw [h, byteLength_append]
    omega
  have hslice : slice? (byteLength (before.rdropWhile inLine)) (min (byteLength before) (byteLength source.toList))
      source.toList = some (before.rtakeWhile inLine) := by
    rw [hstop, toList_eq_line h, slice?_append]
  rw [position, lineAt_ofText h hlimit, lineStart?_ofText h hlimit, Option.getD_some]
  simp only [hslice]
  rw [Nat.min_eq_left (by omega)]

/-- In a text of one line, and in one with its newline, what is cut off at the end is carriage returns. -/
theorem rdropWhile_lineEnd {cs : List Char} (h : '\n' ∉ cs) :
    cs.rdropWhile (fun c => c == '\n' || c == '\r') = cs.rdropWhile (· == '\r') ∧
    (cs ++ ['\n']).rdropWhile (fun c => c == '\n' || c == '\r') = cs.rdropWhile (· == '\r') := by
  have hline : cs.rdropWhile (fun c => c == '\n' || c == '\r') = cs.rdropWhile (· == '\r') := by
    induction cs using List.reverseRecOn with
    | nil => rfl
    | append_singleton cs c ih =>
      simp only [List.mem_append, List.mem_singleton, not_or] at h
      have hc : (c == '\n') = false := beq_false_of_ne (Ne.symm h.2)
      rw [List.rdropWhile_concat, List.rdropWhile_concat, ih h.1, hc, Bool.false_or]
  exact ⟨hline, by rw [List.rdropWhile_concat_pos _ _ _ rfl, hline]⟩

theorem newline_not_mem_line (before after : List Char) :
    '\n' ∉ before.rtakeWhile inLine ++ after.takeWhile inLine := by
  rw [List.mem_append, not_or]
  constructor
  · intro h
    cases List.mem_rtakeWhile_imp h
  · intro h
    cases List.all_eq_true.mp List.all_takeWhile _ h

theorem exists_rest_of_newline {cs : List Char} (h : '\n' ∈ cs) :
    ∃ rest, cs = cs.takeWhile inLine ++ '\n' :: rest := by
  induction cs with
  | nil => cases h
  | cons c cs ih =>
    by_cases hc : c = '\n'
    · subst hc
      exact ⟨cs, rfl⟩
    · obtain ⟨rest, hrest⟩ := ih ((List.mem_cons.mp h).resolve_left (Ne.symm hc))
      have hline : inLine c = true := bne_iff_ne.mpr hc
      refine ⟨rest, ?_⟩
      rw [List.takeWhile_cons_of_pos hline, List.cons_append, ← hrest]

/-- The line of a place is shown without the carriage returns that end it. -/
theorem lineText?_ofText (h : source.toList = before ++ after)
    (hlimit : byteLength before < maxOffset)
    (hnext : '\n' ∈ after → byteLength before + byteLength (after.takeWhile inLine) + 1 ≤ maxOffset) :
    (ofText source).lineText? source (before.count '\n' + 1) =
      some (String.ofList ((before.rtakeWhile inLine ++ after.takeWhile inLine).rdropWhile (· == '\r'))) := by
  obtain ⟨hlast, hended⟩ := rdropWhile_lineEnd (newline_not_mem_line before after)
  have hline := byteLength_line before
  have hsource := toList_eq_line h
  have hshown {text : List Char} (hslice : slice? (byteLength (before.rdropWhile inLine))
      (((ofText source).lineStart? (before.count '\n' + 2)).getD (byteLength source.toList))
      source.toList = some text) :
      (ofText source).lineText? source (before.count '\n' + 1) =
        some (String.ofList (text.rdropWhile fun c => c == '\n' || c == '\r')) := by
    rw [lineText?, lineStart?_ofText h hlimit]
    exact congrArg (Option.bind · _) hslice
  rw [lineStart?_next h] at hshown
  by_cases hnewline : '\n' ∈ after
  · -- the line is cut out with its newline
    obtain ⟨rest, hafter⟩ := exists_rest_of_newline hnewline
    have hcut := slice?_append (before.rdropWhile inLine)
      (before.rtakeWhile inLine ++ after.takeWhile inLine ++ ['\n']) rest
    have hstop : min (byteLength before + byteLength (after.takeWhile inLine) + 1) maxOffset =
        byteLength (before.rdropWhile inLine) +
          byteLength (before.rtakeWhile inLine ++ after.takeWhile inLine ++ ['\n']) := by
      have hone : byteLength ['\n'] = 1 := rfl
      rw [Nat.min_eq_left (hnext hnewline), byteLength_append, byteLength_append, hone]
      omega
    have htext : source.toList = before.rdropWhile inLine ++
        (before.rtakeWhile inLine ++ after.takeWhile inLine ++ ['\n'] ++ rest) := by
      rw [hsource]
      conv_lhs => rw [hafter]
      simp only [List.append_assoc, List.singleton_append]
    rw [← hstop, ← htext] at hcut
    rw [if_pos hnewline, Option.getD_some] at hshown
    rw [hshown hcut, hended]
  · -- the last line goes on to the end of the text
    have hafter : after.takeWhile inLine = after :=
      List.takeWhile_eq_self_iff.mpr fun c hc => bne_iff_ne.mpr (ne_of_mem_of_not_mem hc hnewline)
    have hcut := slice?_append (before.rdropWhile inLine) (before.rtakeWhile inLine ++ after) []
    rw [List.append_nil, ← hsource, ← byteLength_append, ← hsource] at hcut
    rw [if_neg hnewline, Option.getD_none] at hshown
    rw [hshown hcut, hafter]
    rw [hafter] at hlast
    rw [hlast]

end LineTable
end SmallLisp
