import SmallLisp.CommandLine.Options
import SmallLisp.CommandLine.Toolchain
import Mathlib.Data.List.TakeWhile

/-! # Where an executable is made

The paths that making an executable writes are made from the path of its source by taking an extension away and adding
others. They are compared with the path of the source part by part, so that a path that is written in another way is
still found to be the same.
-/
namespace SmallLisp
namespace Path

def parts (path : String) : List (List Char) := pieces (· == '/') path.toList

def places (path : String) : List (List Char) := (parts path).filter (!isIdle ·)

def isRooted (path : String) : Bool := path.toList.head? == some '/'

/-- Two paths that lead from the same start through the same places. -/
def Same (p q : String) : Prop := isRooted p = isRooted q ∧ places p = places q

instance (p q : String) : Decidable (Same p q) := inferInstanceAs (Decidable (_ ∧ _))

example : Same "d//x" "./d/x/" ∧ ¬ Same "/x" "x" := by decide

/-! ## Parts -/

theorem slash_not_mem {path : String} {part : List Char} (h : part ∈ parts path) : '/' ∉ part :=
  not_mem_of_mem_pieces h

/-- A path is its parts joined. -/
theorem join_parts (path : String) : join (parts path) = path := by
  rw [join, parts, intercalate_pieces, String.ofList_toList]

theorem parts_join {ps : List (List Char)} (hps : ps ≠ []) (h : ∀ part ∈ ps, '/' ∉ part) :
    parts (join ps) = ps := by
  rw [parts, join, String.toList_ofList, pieces_eq_splitOn, List.splitOn_intercalate '/' h hps]

/-- What is added at the end of a path goes to its last part. -/
theorem join_concat_append (ps : List (List Char)) (last : List Char) (added : String) :
    join (ps ++ [last]) ++ added = join (ps ++ [last ++ added.toList]) := by
  apply String.toList_injective
  simp only [join, String.toList_append, String.toList_ofList]
  induction ps with
  | nil => simp
  | cons part ps ih =>
    have hne : ∀ x : List Char, ps ++ [x] ≠ [] := fun x => by simp
    rw [List.cons_append, List.cons_append, List.intercalate_cons_of_ne_nil (hne _),
      List.intercalate_cons_of_ne_nil (hne _), List.append_assoc, ih]

/-- Whether a path is rooted is seen on its first part. -/
theorem isRooted_join (part : List Char) (rest : List (List Char)) :
    isRooted (join (part :: rest)) =
      if rest = [] then part.head? == some '/' else (part ++ ['/']).head? == some '/' := by
  rw [isRooted, join, String.toList_ofList]
  by_cases h : rest = []
  · rw [if_pos h, h, List.intercalate_singleton]
  · rw [if_neg h, List.intercalate_cons_of_ne_nil h, List.append_assoc, List.head?_append, List.head?_append]
    simp

/-! ## File names -/

theorem isIdle_iff {part : List Char} : isIdle part = true ↔ part = [] ∨ part = ['.'] := by
  simp [isIdle]

/-- Adding an extension to a part makes it a name. -/
theorem isIdle_append {added : List Char} (hne : added ≠ []) (hdot : added ≠ ['.']) (part : List Char) :
    isIdle (part ++ added) = false := by
  rw [Bool.eq_false_iff, Ne, isIdle_iff, List.append_eq_nil_iff, List.append_eq_singleton_iff]
  simp [hne, hdot]

/-- A path with a file name is cut at its last part that leads anywhere. -/
theorem parts_of_split? {path : String} {p : Parts} (h : split? path = some p) :
    parts path = p.before ++ p.name :: p.after ∧ (∀ part ∈ p.after, isIdle part = true) ∧
      isIdle p.name = false ∧ p.name ≠ ['.', '.'] := by
  have hparts : pieces (· == '/') path.toList = parts path := rfl
  rw [split?, hparts] at h
  have hcut := List.takeWhile_append_dropWhile (p := isIdle) (l := (parts path).reverse)
  have hname := List.head?_dropWhile_not isIdle (parts path).reverse
  cases hdrop : (parts path).reverse.dropWhile isIdle with
  | nil =>
    rw [hdrop] at h
    cases h
  | cons name before =>
    rw [hdrop] at h hcut hname
    by_cases hup : name = ['.', '.']
    · simp [hup] at h
    · simp only [hup, if_false, Option.some.injEq] at h
      subst h
      refine ⟨?_, fun part hpart => ?_, hname, hup⟩
      · have hparts := congrArg List.reverse hcut
        rw [List.reverse_reverse, List.reverse_append, List.reverse_cons, List.append_assoc] at hparts
        exact hparts.symm
      · exact List.mem_takeWhile_imp (List.mem_reverse.mp hpart)

/-- A file name with an extension is cut at its last dot. -/
theorem eq_of_splitExtension {name stem ext : List Char} (h : splitExtension name = (stem, some ext)) :
    name = stem ++ '.' :: ext ∧ '.' ∉ ext ∧ stem ≠ [] := by
  unfold splitExtension at h
  have hcut := List.takeWhile_append_dropWhile (p := (· != '.')) (l := name.reverse)
  have hdot := List.head?_dropWhile_not (· != '.') name.reverse
  split at h
  case h_1 dot c rest hdrop =>
    rw [hdrop] at hcut hdot
    simp only [Prod.mk.injEq, Option.some.injEq] at h
    obtain ⟨rfl, rfl⟩ := h
    have hd : dot = '.' := by simpa using hdot
    refine ⟨?_, fun hmem => ?_, by simp⟩
    · have hname := congrArg List.reverse hcut
      rw [List.reverse_reverse, List.reverse_append, List.reverse_cons, List.append_assoc, hd] at hname
      exact hname.symm
    · have := List.mem_takeWhile_imp (List.mem_reverse.mp hmem)
      simp at this
  case h_2 => cases h

/-- The file name of a path has this extension, and taking it away does not lead to the parent directory. -/
def HasExtension (path ext : String) : Prop :=
  ∃ p stem, split? path = some p ∧ splitExtension p.name = (stem, some ext.toList) ∧
    ¬ (stem = ['.'] ∧ p.after = [])

theorem HasExtension.eq {path ext : String} (h : HasExtension path ext) {p : Parts} {stem own : List Char}
    (hp : split? path = some p) (hsplit : splitExtension p.name = (stem, some own)) :
    own = ext.toList ∧ ¬ (stem = ['.'] ∧ p.after = []) := by
  obtain ⟨q, other, hq, hcut, hparent⟩ := h
  rw [hp] at hq
  cases hq
  rw [hsplit] at hcut
  cases hcut
  exact ⟨rfl, hparent⟩

/-- A path with an extension leads to its directory without it. -/
theorem withoutExtension?_eq {path : String} {p : Parts} {stem ext : List Char} (hp : split? path = some p)
    (hsplit : splitExtension p.name = (stem, some ext)) : withoutExtension? path =
      some (join (p.before ++ [if stem = ['.'] ∧ p.after = [] then ['.', '.'] else stem])) := by
  rw [withoutExtension?, hp, Option.bind_some, hsplit]

theorem exists_of_withoutExtension? {path : String} (h : withoutExtension? path ≠ none) :
    ∃ p stem ext, split? path = some p ∧ splitExtension p.name = (stem, some ext) := by
  rw [withoutExtension?] at h
  cases hp : split? path with
  | none => simp [hp] at h
  | some p =>
    rcases hsplit : splitExtension p.name with ⟨stem, _ | ext⟩
    · simp [hp, hsplit] at h
    · exact ⟨p, stem, ext, rfl, hsplit⟩

/-- Adding to a path leads elsewhere. -/
theorem not_same_append {added : String} (hne : added.toList ≠ []) (hdot : added.toList ≠ ['.'])
    (hslash : '/' ∉ added.toList) (path : String) : ¬ Same (path ++ added) path := by
  rintro ⟨-, hplaces⟩
  obtain ⟨ps, last, hlast⟩ : ∃ ps last, parts path = ps ++ [last] := by
    rcases (parts path).eq_nil_or_concat with h | ⟨ps, last, h⟩
    · exact absurd h (pieces_ne_nil _ _)
    · exact ⟨ps, last, h.trans List.concat_eq_append⟩
  have hin : ∀ part ∈ ps ++ [last], '/' ∉ part := hlast ▸ fun part => slash_not_mem
  have hparts : parts (path ++ added) = ps ++ [last ++ added.toList] := by
    rw [← join_parts path, hlast, join_concat_append, parts_join (by simp)]
    simp only [List.forall_mem_append, List.forall_mem_singleton] at hin ⊢
    exact ⟨hin.1, by simp [hin.2, hslash]⟩
  rw [places, places, hparts, hlast, List.filter_append, List.filter_append, List.append_cancel_left_eq] at hplaces
  have hname := isIdle_append hne hdot last
  by_cases hidle : isIdle last = true
  · simp [hidle, hname] at hplaces
  · simp [hidle, hname, hne] at hplaces

/-- Another file in the same directory is the same only under the same name. -/
theorem same_join_iff {path : String} {p : Parts} (hp : split? path = some p) {name : List Char} (hslash : '/' ∉ name)
    (hne : name ≠ []) : Same (join (p.before ++ [name])) path ↔ name = p.name := by
  obtain ⟨hparts, hafter, hname, -⟩ := parts_of_split? hp
  have hin : ∀ part ∈ p.before ++ p.name :: p.after, '/' ∉ part := hparts ▸ fun part => slash_not_mem
  simp only [List.forall_mem_append, List.forall_mem_cons] at hin
  have hplaces : places path = p.before.filter (!isIdle ·) ++ [p.name] := by
    have hnone : p.after.filter (!isIdle ·) = [] := by
      rw [List.filter_eq_nil_iff]
      intro part hpart
      simp [hafter part hpart]
    rw [places, hparts, List.filter_append, List.filter_cons_of_pos (by simp [hname]), hnone]
  have hplaces' : places (join (p.before ++ [name])) = p.before.filter (!isIdle ·) ++ [name].filter (!isIdle ·) := by
    rw [places, parts_join (by simp), List.filter_append]
    rw [List.forall_mem_append, List.forall_mem_singleton]
    exact ⟨hin.1, hslash⟩
  rw [Same, hplaces, hplaces', List.append_cancel_left_eq]
  constructor
  · rintro ⟨-, h⟩
    by_cases hidle : isIdle name = true
    · simp [hidle] at h
    · simpa [hidle] using h
  · rintro rfl
    refine ⟨?_, by simp [hname]⟩
    rw [← join_parts path, hparts]
    cases p.before with
    | nil =>
      rw [List.nil_append, List.nil_append, isRooted_join, isRooted_join, if_pos rfl]
      obtain ⟨c, cs, hc⟩ := List.exists_cons_of_ne_nil hne
      simp [hc]
    | cons part before =>
      rw [List.cons_append, List.cons_append, isRooted_join, isRooted_join, if_neg (by simp), if_neg (by simp)]

end Path

/-! ## The paths written -/

open SmallLisp.Path

/-- A path made by adding to the default output leads to the source exactly if the extension that was taken away is
added again. -/
theorem same_defaultOutput_iff {added : String} (hslash : '/' ∉ added.toList)
    (hdot : added.toList = [] ∨ '.' ∈ added.toList) (source : String) :
    Same (defaultOutput source ++ added) source ↔ ∃ ext, added = "." ++ ext ∧ HasExtension source ext := by
  by_cases hwithout : withoutExtension? source = none
  case pos =>
    rw [defaultOutput, hwithout, Option.getD_none, String.append_assoc]
    refine iff_of_false (not_same_append (by simp) (by simp) (by simpa using hslash) source) ?_
    rintro ⟨ext, -, p, stem, hp, hsplit, -⟩
    rw [withoutExtension?_eq hp hsplit] at hwithout
    cases hwithout
  case neg =>
    obtain ⟨p, stem, ext, hp, hsplit⟩ := exists_of_withoutExtension? hwithout
    obtain ⟨hparts, -, -, hup⟩ := parts_of_split? hp
    obtain ⟨hname, hnodot, hstem⟩ := eq_of_splitExtension hsplit
    have hmem : p.name ∈ parts source := by simp [hparts]
    have hin := slash_not_mem hmem
    rw [hname, List.mem_append, not_or] at hin
    rw [defaultOutput, withoutExtension?_eq hp hsplit, Option.getD_some, join_concat_append]
    by_cases hparent : stem = ['.'] ∧ p.after = []
    · -- From the parent directory no extension leads back: the one taken away was behind two dots.
      rw [if_pos hparent, same_join_iff hp (by simpa using hslash) (by simp), hname, hparent.1]
      refine iff_of_false (fun h => ?_) (fun ⟨e, _, he⟩ => (he.eq hp hsplit).2 hparent)
      have hadded : added.toList = ext := by simpa using h
      rcases hdot with hnil | hmem
      · exact hup (by rw [hname, hparent.1, ← hadded, hnil]; rfl)
      · exact hnodot (hadded ▸ hmem)
    · rw [if_neg hparent, same_join_iff hp (by simp [hin.1, hslash]) (by simp [hstem]), hname,
        List.append_cancel_left_eq]
      constructor
      · intro h
        refine ⟨String.ofList ext, String.toList_injective (by simp [h]), p, stem, hp, ?_, hparent⟩
        simpa using hsplit
      · rintro ⟨e, rfl, he⟩
        simp [(he.eq hp hsplit).1]

/-- The executable itself is never written onto its source. The text of the module is exactly if the source has the
extension `ll`, and the assembly exactly if it has the extension `s`. -/
theorem writtenPaths_same_iff (source : String) : ¬ Same (defaultOutput source) source ∧
    (Same (Toolchain.irPath (defaultOutput source)) source ↔ HasExtension source "ll") ∧
    (Same (Toolchain.asmPath (defaultOutput source)) source ↔ HasExtension source "s") := by
  have hext : ∀ name : String, '/' ∉ name.toList →
      (Same (defaultOutput source ++ ("." ++ name)) source ↔ HasExtension source name) := by
    intro name hslash
    rw [same_defaultOutput_iff (by simpa using hslash) (.inr (by simp))]
    constructor
    · rintro ⟨ext, heq, h⟩
      rw [String.append_right_inj] at heq
      rwa [heq]
    · exact fun h => ⟨name, rfl, h⟩
  refine ⟨fun h => ?_, hext "ll" (by decide), hext "s" (by decide)⟩
  have hself : Same (defaultOutput source ++ "") source ↔ _ := same_defaultOutput_iff (by decide) (.inl rfl) source
  obtain ⟨ext, hempty, -⟩ := hself.mp (by simpa using h)
  simpa using congrArg String.toList hempty

/-- A source is lost where it has the extension of a file that is made on the way. -/
theorem source_overwritten : (split? "x.ll").isSome ∧ Toolchain.irPath (defaultOutput "x.ll") = "x.ll" ∧
    Toolchain.asmPath (defaultOutput "d/x.s") = "d/x.s" := by
  decide

end SmallLisp
