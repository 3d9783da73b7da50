import Mathlib.Logic.Function.Iterate
import SmallLisp.Proofs.NameTokens
import SmallLisp.Proofs.ReaderCalls

/-! # Reading byte by byte

A place in a text can also be kept as an offset alone, from which one byte after the other is read. Such a cursor does
not see where characters begin, and the zero that it has at the end of the text is a byte that a text may hold as well.
Nothing of this shows in the reader: all that it passes are characters of one byte, and a class of such characters holds
of no byte of another character.
-/
namespace SmallLisp

structure ByteCursor (source : String) where
  offset : Nat

namespace ByteCursor
variable {source : String}

/-- The next byte, or zero at the end of the text. -/
def current (b : ByteCursor source) : UInt8 := source.toUTF8.data[b.offset]?.getD 0

def atEnd (b : ByteCursor source) : Bool := source.utf8ByteSize ≤ b.offset

/-- Past one byte, also where it is not all of a character. -/
def advance (b : ByteCursor source) : ByteCursor source := if b.atEnd then b else ⟨b.offset + 1⟩

def eatWhile (p : UInt8 → Bool) (b : ByteCursor source) : ByteCursor source :=
  if source.utf8ByteSize ≤ b.offset then b
  else if p b.current then eatWhile p ⟨b.offset + 1⟩
  else b
termination_by source.utf8ByteSize - b.offset

/-- The next character, unless the cursor is inside of one. -/
def currentChar? (b : ByteCursor source) : Option Char := (dropBytes? b.offset source.toList).bind List.head?

/-- The text from an offset up to the cursor, empty where one of the two is inside of a character. -/
def sliceFrom (b : ByteCursor source) (start : Nat) : List Char := (slice? start b.offset source.toList).getD []

/-- The fault that is reported where something else is expected than what is next. -/
def unexpected (b : ByteCursor source) (expected : Expectation) : ParseError :=
  if b.atEnd then ⟨.unexpectedEnd expected, .point b.offset⟩
  else ⟨.unexpectedChar (b.currentChar?.getD '\x00') expected,
    .ofOffsets b.offset (b.offset + b.currentChar?.elim 0 Char.utf8Size)⟩

/-- Two cursors at one place of the text. -/
structure Shows (b : ByteCursor source) (c : Cursor) : Prop where
  offset_eq : b.offset = c.offset
  within : c.In source.toList

end ByteCursor

/-! ## Bytes of characters -/

theorem length_encoded (cs : List Char) : (cs.flatMap String.utf8EncodeChar).length = byteLength cs := by
  induction cs with
  | nil => rfl
  | cons x cs ih => rw [List.flatMap_cons, List.length_append, String.length_utf8EncodeChar, ih, byteLength_cons]

theorem utf8ByteSize_eq_byteLength (source : String) : source.utf8ByteSize = byteLength source.toList := by
  rw [← length_encoded, ← IR.Name.bytes, ← IR.Name.toUTF8_eq_bytes]
  rfl

/-- A class of characters of one byte, told by the byte. -/
def onByte (q : Char → Bool) (byte : UInt8) : Bool := q (.ofNat byte.toNat)

theorem toNat_ofNat_byte (byte : UInt8) : (Char.ofNat byte.toNat).val.toNat = byte.toNat := by
  have hvalid : byte.toNat.isValidChar := .inl (Nat.lt_trans byte.toNat_lt (by decide))
  rw [Char.ofNat, dif_pos hvalid]
  rfl

theorem le_head_of_utf8Size_ne_one {x : Char} (h : x.utf8Size ≠ 1) :
    128 ≤ ((String.utf8EncodeChar x).headD 0).toNat := by
  have hhigh : ¬ x.val.toNat ≤ 127 := fun hle => h (Char.utf8Size_eq_one_iff.mpr (UInt32.le_iff_toNat_le.mpr hle))
  rw [String.utf8EncodeChar, if_neg hhigh]
  split
  · simp only [List.headD_cons, UInt8.toNat_ofNat']
    omega
  split
  · simp only [List.headD_cons, UInt8.toNat_ofNat']
    omega
  · simp only [List.headD_cons, UInt8.toNat_ofNat']
    omega

/-- The first byte of a character tells whether the character is in a class of characters of one byte. -/
theorem onByte_head {q : Char → Bool} (hq : ∀ x, q x = true → x.utf8Size = 1) (x : Char) :
    onByte q ((String.utf8EncodeChar x).headD 0) = q x := by
  by_cases hsize : x.utf8Size = 1
  · have hle := UInt32.le_iff_toNat_le.mp (Char.utf8Size_eq_one_iff.mp hsize)
    have hbyte : x.val.toUInt8.toNat = x.toNat := Nat.mod_eq_of_lt (Nat.lt_of_le_of_lt hle (by decide))
    rw [String.utf8EncodeChar_eq_singleton hsize, List.headD_cons, onByte, hbyte, Char.ofNat_toNat]
  · -- the byte is not below 128, so neither the character nor what the byte alone would stand for is in the class
    have hhigh := le_head_of_utf8Size_ne_one hsize
    have hsize' : (Char.ofNat ((String.utf8EncodeChar x).headD 0).toNat).utf8Size ≠ 1 := by
      rw [Ne, Char.utf8Size_eq_one_iff, UInt32.le_iff_toNat_le, toNat_ofNat_byte]
      exact Nat.not_le_of_lt hhigh
    rw [onByte, eq_false_of_ne_true (mt (hq _) hsize'), eq_false_of_ne_true (mt (hq x) hsize)]

/-! ## Steps of the two cursors -/

namespace ByteCursor
variable {source : String} {b : ByteCursor source} {c : Cursor} {x : Char} {q : Char → Bool}

theorem shows_of_toList_eq {before rest : List Char} (h : source.toList = before ++ rest) :
    (⟨byteLength before⟩ : ByteCursor source).Shows ⟨byteLength before, rest⟩ := ⟨rfl, before, h, rfl⟩

namespace Shows

theorem atEnd_iff (h : b.Shows c) : b.atEnd = true ↔ c.rest = [] := by
  obtain ⟨before, htext, hoffset⟩ := h.within
  rw [atEnd, decide_eq_true_iff, utf8ByteSize_eq_byteLength, h.offset_eq, htext, byteLength_append, hoffset]
  constructor
  · intro hle
    by_contra hne
    have hpos := byteLength_pos hne
    omega
  · intro hnil
    rw [hnil]
    exact Nat.le_refl _

theorem current_eq (h : b.Shows c) : b.current = (c.rest.flatMap String.utf8EncodeChar).headD 0 := by
  obtain ⟨before, htext, hoffset⟩ := h.within
  have hbytes : source.toUTF8.data.toList =
      before.flatMap String.utf8EncodeChar ++ c.rest.flatMap String.utf8EncodeChar := by
    rw [IR.Name.toUTF8_eq_bytes, IR.Name.bytes, htext, List.flatMap_append]
  have hbefore : b.offset = (before.flatMap String.utf8EncodeChar).length := by
    rw [h.offset_eq, length_encoded, hoffset]
  rw [current, ← Array.getElem?_toList, hbytes, hbefore, List.getElem?_append_right (Nat.le_refl _), Nat.sub_self,
    List.headD_eq_head?_getD, List.head?_eq_getElem?]

/-- A NUL in a text is the byte that there is at the end, but the text does not end there. -/
example : (⟨0⟩ : ByteCursor "\x00").current = 0 ∧ (⟨0⟩ : ByteCursor "\x00").atEnd = false := by decide

theorem currentChar?_eq (h : b.Shows c) : b.currentChar? = c.rest.head? := by
  obtain ⟨before, htext, hoffset⟩ := h.within
  rw [currentChar?, h.offset_eq, htext, ← hoffset, dropBytes?_append, Option.bind_some]

theorem exists_head (h : b.Shows c) (hend : b.atEnd ≠ true) : ∃ x, c.rest.head? = some x := by
  obtain ⟨x, rest, hrest⟩ := List.exists_cons_of_ne_nil (mt h.atEnd_iff.mpr hend)
  exact ⟨x, List.head?_eq_some_iff.mpr ⟨rest, hrest⟩⟩

/-- A test of the next byte for a class of characters of one byte is a test of the next character. -/
theorem onByte_current (hq : ∀ x, q x = true → x.utf8Size = 1) (h : b.Shows c) (hx : c.rest.head? = some x) :
    onByte q b.current = q x := by
  obtain ⟨rest, hrest⟩ := List.head?_eq_some_iff.mp hx
  have hfirst : ((x :: rest).flatMap String.utf8EncodeChar).headD 0 = (String.utf8EncodeChar x).headD 0 := by
    rw [List.flatMap_cons]
    cases hbytes : String.utf8EncodeChar x with
    | nil => exact absurd hbytes String.utf8EncodeChar_ne_nil
    | cons y ys => rfl
  rw [h.current_eq, hrest, hfirst, onByte_head hq]

theorem next (h : b.Shows c) (hx : c.rest.head? = some x) (hsize : x.utf8Size = 1) :
    b.atEnd ≠ true ∧ (⟨b.offset + 1⟩ : ByteCursor source).Shows c.advance := by
  obtain ⟨rest, hrest⟩ := List.head?_eq_some_iff.mp hx
  refine ⟨?_, ?_, h.within.advance⟩
  · rw [Ne, h.atEnd_iff, hrest]
    exact List.cons_ne_nil _ _
  · rw [h.offset_eq]
    obtain ⟨offset, text⟩ := c
    cases hrest
    rw [Cursor.advance, hsize]

theorem advance (h : b.Shows c) (hx : c.rest.head? = some x) (hsize : x.utf8Size = 1) : b.advance.Shows c.advance := by
  obtain ⟨hend, hnext⟩ := h.next hx hsize
  rwa [ByteCursor.advance, if_neg hend]

/-- Bytes of a class are eaten as far as characters of the class are skipped. -/
theorem eatWhile (hq : ∀ x, q x = true → x.utf8Size = 1) (h : b.Shows c) :
    (b.eatWhile (onByte q)).Shows (c.skip q) := by
  fun_induction ByteCursor.eatWhile (onByte q) b generalizing c with
  | case1 b hend =>
    have hnil : c.rest = [] := h.atEnd_iff.mp (decide_eq_true hend)
    rwa [Cursor.skip_of_stops (hnil ▸ nofun)]
  | case2 b hend hbyte ih =>
    obtain ⟨x, hx⟩ := h.exists_head (mt of_decide_eq_true hend)
    have hclass : q x = true := (h.onByte_current hq hx).symm.trans hbyte
    rw [Cursor.skip_of_head hx hclass]
    exact ih (h.next hx (hq x hclass)).2
  | case3 b hend hbyte =>
    have hstops : Stops q c.rest := by
      intro x hx
      rw [← h.onByte_current hq hx]
      exact eq_false_of_ne_true hbyte
    rwa [Cursor.skip_of_stops hstops]

theorem iterate_advance {w rest : List Char} (hsize : ∀ x ∈ w, x.utf8Size = 1)
    (h : b.Shows ⟨b.offset, w ++ rest⟩) :
    (ByteCursor.advance^[w.length] b).Shows ⟨b.offset + w.length, rest⟩ := by
  induction w generalizing b with
  | nil => exact h
  | cons x w ih =>
    obtain ⟨hx, hw⟩ := List.forall_mem_cons.mp hsize
    have hnext := h.advance rfl hx
    change b.advance.Shows ⟨b.offset + x.utf8Size, w ++ rest⟩ at hnext
    rw [hx] at hnext
    have hoffset : b.advance.offset = b.offset + 1 := hnext.offset_eq
    have hrest := ih hw (hoffset ▸ hnext)
    rwa [hoffset, Nat.add_assoc, Nat.add_comm 1] at hrest

end Shows
end ByteCursor

/-! ## Steps of the reader -/

namespace Parser
variable {source : String} {b : ByteCursor source} {c : Cursor}

/-- A run of a class is eaten byte by byte and then cut out of the text. -/
theorem run_eq_eatWhile {q : Char → Bool} (hq : ∀ x, q x = true → x.utf8Size = 1) (h : b.Shows c) :
    ∃ c', run q c = .ok ((b.eatWhile (onByte q)).sliceFrom b.offset) c' ∧ (b.eatWhile (onByte q)).Shows c' := by
  have hshows := h.eatWhile hq
  obtain ⟨before, htext, hoffset⟩ := h.within
  have hslice : slice? c.offset (c.skip q).offset source.toList = some (c.rest.takeWhile q) := by
    refine slice?_eq_some_iff.mpr ⟨before, (c.skip q).rest, ?_, hoffset.symm, hoffset.symm ▸ rfl⟩
    rw [c.takeWhile_append_skip, htext]
  refine ⟨c.skip q, ?_, hshows⟩
  rw [ByteCursor.sliceFrom, hshows.offset_eq, h.offset_eq, hslice]
  rfl

theorem unexpected_eq {α : Type} (expected : Expectation) (h : b.Shows c) :
    (unexpected expected : Parser α) c = .error (b.unexpected expected) c := by
  have hend := h.atEnd_iff
  rw [ByteCursor.unexpected, h.currentChar?_eq, h.offset_eq]
  obtain ⟨offset, _ | ⟨x, rest⟩⟩ := c
  · rw [if_pos (hend.mpr rfl)]
    rfl
  · rw [if_neg (mt hend.mp (List.cons_ne_nil _ _))]
    rfl

end Parser

/-! ## Calls on one reader -/

/-- A call of the reader as a cursor over bytes goes through it: one byte after the other, each of them a character, to
where reading stops. -/
structure Reply.Bytewise (source : String) (r : Reply) : Prop where
  steps : ∃ n, ByteCursor.advance^[n] (⟨r.before.offset⟩ : ByteCursor source) = ⟨r.after.offset⟩ ∧
    ∀ k ≤ n, IsCut source.toList (ByteCursor.advance^[k] (⟨r.before.offset⟩ : ByteCursor source)).offset
  found : ∀ e found, r.outcome = .error e → e.fault.found? = some found →
    (⟨r.after.offset⟩ : ByteCursor source).atEnd = false ∧
      (⟨r.after.offset⟩ : ByteCursor source).currentChar? = some found
  atEnd : ∀ e expected, r.outcome = .error e → e.fault = .unexpectedEnd expected →
    (⟨r.after.offset⟩ : ByteCursor source).atEnd = true ∧ (⟨r.after.offset⟩ : ByteCursor source).current = 0

theorem Reply.Exact.bytewise {source : String} {r : Reply} (h : r.Exact source.toList) : r.Bytewise source where
  steps := by
    obtain ⟨w, hslice, hsize⟩ := h.passed
    obtain ⟨before, rest, htext, hbefore, hafter⟩ := slice?_eq_some_iff.mp hslice
    rw [byteLength_eq_length hsize] at hafter
    have hreach : ∀ k ≤ w.length, (ByteCursor.advance^[k] (⟨r.before.offset⟩ : ByteCursor source)).Shows
        ⟨r.before.offset + k, w.drop k ++ rest⟩ := by
      intro k hk
      rw [← List.take_append_drop k w, List.append_assoc] at htext
      have hshows := (ByteCursor.shows_of_toList_eq htext).iterate_advance fun x hx => hsize x (List.mem_of_mem_take hx)
      rwa [List.length_take, Nat.min_eq_left hk, ← hbefore] at hshows
    refine ⟨w.length, ?_, fun k hk => ?_⟩
    · have hoffset := (hreach _ (Nat.le_refl _)).offset_eq
      rw [hafter, ← hbefore]
      exact congrArg ByteCursor.mk hoffset
    · have hk := hreach k hk
      rw [hk.offset_eq]
      exact hk.within.isCut
  found := by
    intro e found houtcome hfound
    obtain ⟨hspan, hslice⟩ := h.found e found houtcome hfound
    rw [hspan] at hslice
    obtain ⟨before, rest, htext, hbefore, -⟩ := slice?_eq_some_iff.mp hslice
    have hshows := ByteCursor.shows_of_toList_eq htext
    rw [← hbefore] at hshows
    exact ⟨eq_false_of_ne_true (mt hshows.atEnd_iff.mp (List.cons_ne_nil _ _)), hshows.currentChar?_eq⟩
  atEnd := by
    intro e expected houtcome hend
    have hshows := ByteCursor.shows_of_toList_eq (List.append_nil source.toList).symm
    rw [← h.atEnd e expected houtcome hend] at hshows
    exact ⟨hshows.atEnd_iff.mpr rfl, hshows.current_eq⟩

/-- Whatever calls are made on one reader, a cursor over bytes goes through them: it is never inside of a character, a
character that is reported as found is its next one, and the end of the text is only reported where it has come to
the end. -/
theorem replies_bytewise {source : String} (hlen : byteLength source.toList ≤ maxOffset) (requests : List Request) :
    ∀ r ∈ replies (.ofText source) requests, r.Bytewise source := by
  intro r hr
  exact ((replies_exact_from hlen requests (c := .ofText source) ⟨[], rfl, rfl⟩).1 r hr).bytewise

end SmallLisp
