import SmallLisp.Proofs.LineStarts
import SmallLisp.Text.Pieces

/-! # The line table and a scan of the text

A text below the limit of offsets can be scanned instead of using the table: the newlines before a place number its
line, the characters since the last of them its column, and the lines are the pieces between the newlines. The table
answers the same, also where an offset is past the end of the text or a number is that of no line.
-/
namespace SmallLisp

theorem exists_cut_of_le_count {k : Nat} {cs : List Char} (h : k ≤ cs.count '\n') :
    ∃ before after, cs = before ++ after ∧ before.count '\n' = k := by
  induction cs generalizing k with
  | nil => exact ⟨[], [], rfl, (Nat.le_zero.mp h).symm⟩
  | cons c cs ih =>
    by_cases hk : k = 0
    · exact ⟨[], c :: cs, rfl, hk.symm⟩
    · rw [List.count_cons] at h
      obtain ⟨before, after, rfl, hcount⟩ := @ih (k - if c == '\n' then 1 else 0) (by omega)
      refine ⟨c :: before, after, rfl, ?_⟩
      rw [List.count_cons, hcount]
      split <;> omega

/-- The line at a place goes on to the first newline behind it. -/
theorem splitOn_first {start after : List Char} (h : '\n' ∉ start) :
    ((start ++ after).splitOn '\n')[0]? = some (start ++ after.takeWhile inLine) := by
  by_cases hnewline : '\n' ∈ after
  · obtain ⟨rest, hafter⟩ := LineTable.exists_rest_of_newline hnewline
    have hline : '\n' ∉ start ++ after.takeWhile inLine := by
      rw [List.mem_append, not_or]
      exact ⟨h, fun hmem => by cases List.all_eq_true.mp List.all_takeWhile _ hmem⟩
    conv_lhs => rw [hafter, ← List.append_assoc, List.splitOn_append_cons_self_of_not_mem hline]
    rfl
  · have hline : '\n' ∉ start ++ after := by
      rw [List.mem_append, not_or]
      exact ⟨h, hnewline⟩
    have hafter : after.takeWhile inLine = after :=
      List.takeWhile_eq_self_iff.mpr fun c hc => bne_iff_ne.mpr (ne_of_mem_of_not_mem hc hnewline)
    rw [hafter, List.splitOn_eq_singleton hline]
    rfl

/-- The piece with a place in it is the one with as many newlines before it. -/
theorem splitOn_at (before after : List Char) : ((before ++ after).splitOn '\n')[before.count '\n']? =
    some (before.rtakeWhile inLine ++ after.takeWhile inLine) := by
  have hstart : '\n' ∉ before.rtakeWhile inLine := fun hmem => by cases List.mem_rtakeWhile_imp hmem
  have hcount : (before.rtakeWhile inLine).count '\n' = 0 := List.count_eq_zero.mpr hstart
  rcases List.eq_nil_or_concat (before.rdropWhile inLine) with hdrop | ⟨lines, c, hdrop⟩
  · have hbefore : before = before.rtakeWhile inLine := by
      conv_lhs => rw [← List.rdropWhile_append_rtakeWhile (p := inLine) (l := before), hdrop, List.nil_append]
    rw [← splitOn_first hstart, ← hbefore]
    rw [← hbefore] at hcount
    rw [hcount]
  · have hc : c = '\n' := by
      have hlast := List.rdropWhile_last_not inLine before (by simp [hdrop])
      simpa [hdrop, inLine] using hlast
    have hbefore : before = lines ++ '\n' :: before.rtakeWhile inLine := by
      conv_lhs => rw [← List.rdropWhile_append_rtakeWhile (p := inLine) (l := before), hdrop, hc]
      simp
    have hnumber : before.count '\n' = (lines.splitOn '\n').length := by
      conv_lhs => rw [hbefore, List.count_append, List.count_cons_self, hcount]
      rw [length_splitOn]
    conv_lhs => rw [hnumber, hbefore, List.append_assoc, List.cons_append, List.splitOn_append_cons_self]
    rw [List.getElem?_append_right (Nat.le_refl _), Nat.sub_self, splitOn_first hstart]

namespace LineTable
variable {source : String}

/-- An offset past the end is on the line of the end. -/
theorem position_min (h : byteLength source.toList < maxOffset) (offset : Nat) :
    (ofText source).position source offset =
      (ofText source).position source (min offset (byteLength source.toList)) := by
  rcases Nat.le_total offset (byteLength source.toList) with hle | hle
  · rw [Nat.min_eq_left hle]
  · have hall {n : Nat} (hn : byteLength source.toList ≤ n) :
        (ofText source).lineAt n = (ofText source).starts.length := by
      rw [lineAt_eq_length (.inr h), List.takeWhile_eq_self_iff.mpr]
      refine List.forall_mem_cons.mpr ⟨by simp, fun start hstart => ?_⟩
      have hbounds := (startsAfterNewlines_bounds 0 source.toList start hstart).2
      rw [decide_eq_true_iff]
      omega
    rw [Nat.min_eq_right hle, position, position, hall hle, hall (Nat.le_refl _), Nat.min_eq_right hle, Nat.min_self]

/-- The table answers what a scan of the text finds: the line and the column of an offset where the text can be cut,
and the line of each number without the carriage returns that end it. -/
theorem ofText_eq_scan (source : String) (hlimit : byteLength source.toList < maxOffset) :
    (∀ offset before, takeBytes? (min offset (byteLength source.toList)) source.toList = some before →
      (ofText source).position source offset =
        (before.count '\n' + 1, (before.rtakeWhile inLine).length + 1)) ∧
    (∀ k, 1 ≤ k → k ≤ source.toList.count '\n' + 1 →
      ∃ line, (source.toList.splitOn '\n')[k - 1]? = some line ∧
        (ofText source).lineText? source k = some (String.ofList (line.rdropWhile (· == '\r')))) ∧
    ∀ k, k = 0 ∨ source.toList.count '\n' + 1 < k → (ofText source).lineText? source k = none := by
  refine ⟨fun offset before hcut => ?_, fun k hlow hhigh => ?_, fun k hk => ?_⟩
  · obtain ⟨after, hsource, hoffset⟩ := takeBytes?_eq_some_iff.mp hcut
    have hbefore : byteLength before < maxOffset := by omega
    rw [position_min hlimit, hoffset, position_ofText hsource hbefore]
  · obtain ⟨before, after, hsource, hcount⟩ := exists_cut_of_le_count (Nat.sub_le_of_le_add hhigh)
    have hlength : byteLength source.toList = byteLength before + byteLength after := by rw [hsource, byteLength_append]
    have hnext : '\n' ∈ after → byteLength before + byteLength (after.takeWhile inLine) + 1 ≤ maxOffset := by
      intro hnewline
      obtain ⟨rest, hafter⟩ := exists_rest_of_newline hnewline
      have hle : byteLength after = byteLength (after.takeWhile inLine) + byteLength ('\n' :: rest) := by
        rw [← byteLength_append, ← hafter]
      rw [byteLength_cons] at hle
      have hone : '\n'.utf8Size = 1 := rfl
      omega
    refine ⟨_, hcount ▸ hsource ▸ splitOn_at before after, ?_⟩
    have htext := lineText?_ofText hsource (by omega) hnext
    rwa [hcount, Nat.sub_add_cancel hlow] at htext
  · have hstart : (ofText source).lineStart? k = none := by
      match k, hk with
      | 0, _ => rfl
      | k + 1, hk =>
        refine List.getElem?_eq_none_iff.mpr ?_
        rw [ofText, List.length_cons, length_startsAfterNewlines]
        omega
    rw [lineText?, hstart]
    rfl

/-- Three lines, the second of them empty: an offset at the newline of that line, one past the end, and the number
behind the last. -/
theorem ofText_eq_scan_emptyLine : byteLength "αβγ\r\n\nδε".toList < maxOffset ∧
    (ofText "αβγ\r\n\nδε").position "αβγ\r\n\nδε" 8 = (2, 1) ∧
    (ofText "αβγ\r\n\nδε").position "αβγ\r\n\nδε" 99 = (3, 3) ∧
    (ofText "αβγ\r\n\nδε").lineText? "αβγ\r\n\nδε" 1 = some "αβγ" ∧
    (ofText "αβγ\r\n\nδε").lineText? "αβγ\r\n\nδε" 4 = none := by
  have hlimit : byteLength "αβγ\r\n\nδε".toList < maxOffset := by decide
  obtain ⟨hposition, hline, hnone⟩ := ofText_eq_scan "αβγ\r\n\nδε" hlimit
  have hfirst : ("αβγ\r\n\nδε".toList.splitOn '\n')[0]? = some "αβγ\r".toList := by decide
  obtain ⟨line, hpiece, htext⟩ := hline 1 (by decide) (by decide)
  obtain rfl : "αβγ\r".toList = line := Option.some.inj (hfirst.symm.trans hpiece)
  refine ⟨hlimit, ?_, ?_, htext.trans (by decide), hnone 4 (.inr (by decide))⟩
  · exact (hposition 8 "αβγ\r\n".toList (by decide)).trans (by decide)
  · exact (hposition 99 "αβγ\r\n\nδε".toList (by decide)).trans (by decide)

end LineTable
end SmallLisp
