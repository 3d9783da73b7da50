/-!
# Byte positions in a text

Offsets count bytes of the UTF-8 form, while a text is a list of characters. A cut at a byte
offset exists only where that offset falls between two characters.
-/
namespace SmallLisp

def byteLength (cs : List Char) : Nat := cs.foldr (fun c n => c.utf8Size + n) 0

/-- The text after its first `n` bytes, where `n` falls between two characters. -/
def dropBytes? : Nat → List Char → Option (List Char)
  | 0, cs => some cs
  | _ + 1, [] => none
  | n + 1, c :: cs => if c.utf8Size ≤ n + 1 then dropBytes? (n + 1 - c.utf8Size) cs else none

/-- The first `n` bytes of a text, where `n` falls between two characters. -/
def takeBytes? : Nat → List Char → Option (List Char)
  | 0, _ => some []
  | _ + 1, [] => none
  | n + 1, c :: cs =>
    if c.utf8Size ≤ n + 1 then (takeBytes? (n + 1 - c.utf8Size) cs).map (c :: ·) else none

/-- The bytes from `start` up to `stop`, where both fall between two characters. -/
def slice? (start stop : Nat) (cs : List Char) : Option (List Char) :=
  if start ≤ stop then (dropBytes? start cs).bind (takeBytes? (stop - start)) else none

@[simp] theorem byteLength_nil : byteLength [] = 0 := rfl

@[simp] theorem byteLength_cons (c : Char) (cs : List Char) :
    byteLength (c :: cs) = c.utf8Size + byteLength cs := rfl

@[simp] theorem byteLength_append (cs ds : List Char) :
    byteLength (cs ++ ds) = byteLength cs + byteLength ds := by
  induction cs with
  | nil => exact (Nat.zero_add _).symm
  | cons c cs ih => rw [List.cons_append, byteLength_cons, ih, byteLength_cons, Nat.add_assoc]

/-- Dropping exactly the bytes of a leading text leaves what follows it. -/
theorem dropBytes?_append (cs ds : List Char) : dropBytes? (byteLength cs) (cs ++ ds) = some ds := by
  induction cs with
  | nil => cases ds <;> rfl
  | cons c cs ih =>
    obtain ⟨n, hn⟩ := Nat.exists_eq_succ_of_ne_zero (Nat.pos_iff_ne_zero.mp (Char.utf8Size_pos c))
    have hlen : byteLength (c :: cs) = (n + byteLength cs) + 1 := by simp [hn]; omega
    rw [hlen, List.cons_append, dropBytes?, if_pos (by omega)]
    rw [show n + byteLength cs + 1 - c.utf8Size = byteLength cs by omega, ih]

/-- Taking exactly the bytes of a leading text gives that text. -/
theorem takeBytes?_append (cs ds : List Char) : takeBytes? (byteLength cs) (cs ++ ds) = some cs := by
  induction cs with
  | nil => cases ds <;> rfl
  | cons c cs ih =>
    obtain ⟨n, hn⟩ := Nat.exists_eq_succ_of_ne_zero (Nat.pos_iff_ne_zero.mp (Char.utf8Size_pos c))
    have hlen : byteLength (c :: cs) = (n + byteLength cs) + 1 := by simp [hn]; omega
    rw [hlen, List.cons_append, takeBytes?, if_pos (by omega)]
    rw [show n + byteLength cs + 1 - c.utf8Size = byteLength cs by omega, ih, Option.map_some]

/-- A part of a text is cut out by the numbers of bytes before it and in it. -/
theorem slice?_append (a v z : List Char) :
    slice? (byteLength a) (byteLength a + byteLength v) (a ++ (v ++ z)) = some v := by
  rw [slice?, if_pos (Nat.le_add_right _ _), dropBytes?_append, Nat.add_sub_cancel_left, Option.bind_some,
    takeBytes?_append]

theorem dropBytes?_eq_some_iff {n : Nat} {cs ds : List Char} :
    dropBytes? n cs = some ds ↔ ∃ a, cs = a ++ ds ∧ n = byteLength a := by
  constructor
  · intro h
    fun_induction dropBytes? n cs with
    | case1 cs =>
      cases h
      exact ⟨[], rfl, rfl⟩
    | case2 => cases h
    | case3 n c cs hle ih =>
      obtain ⟨a, rfl, hn⟩ := ih h
      refine ⟨c :: a, rfl, ?_⟩
      rw [byteLength_cons]
      omega
    | case4 => cases h
  · rintro ⟨a, rfl, rfl⟩
    exact dropBytes?_append a ds

theorem takeBytes?_eq_some_iff {n : Nat} {cs v : List Char} :
    takeBytes? n cs = some v ↔ ∃ z, cs = v ++ z ∧ n = byteLength v := by
  constructor
  · intro h
    fun_induction takeBytes? n cs generalizing v with
    | case1 cs =>
      cases h
      exact ⟨cs, rfl, rfl⟩
    | case2 => cases h
    | case3 n c cs hle ih =>
      obtain ⟨w, hw, rfl⟩ := Option.map_eq_some_iff.mp h
      obtain ⟨z, rfl, hn⟩ := ih hw
      refine ⟨z, rfl, ?_⟩
      rw [byteLength_cons]
      omega
    | case4 => cases h
  · rintro ⟨z, rfl, rfl⟩
    exact takeBytes?_append v z

/-- A part is cut out at two offsets exactly where the text before it ends at the first and it ends at the second. -/
theorem slice?_eq_some_iff {start stop : Nat} {cs v : List Char} : slice? start stop cs = some v ↔
    ∃ a z, cs = a ++ (v ++ z) ∧ start = byteLength a ∧ stop = byteLength a + byteLength v := by
  constructor
  · intro h
    rw [slice?] at h
    split at h
    case isTrue hle =>
      obtain ⟨ds, hds, hv⟩ := Option.bind_eq_some_iff.mp h
      obtain ⟨a, rfl, rfl⟩ := dropBytes?_eq_some_iff.mp hds
      obtain ⟨z, rfl, hlen⟩ := takeBytes?_eq_some_iff.mp hv
      exact ⟨a, z, rfl, rfl, by omega⟩
    case isFalse => cases h
  · rintro ⟨a, z, rfl, rfl, rfl⟩
    exact slice?_append a v z

/-- Every character has a byte at least. -/
theorem length_le_byteLength (cs : List Char) : cs.length ≤ byteLength cs := by
  induction cs with
  | nil => exact Nat.le_refl 0
  | cons c cs ih =>
    have hpos := c.utf8Size_pos
    rw [List.length_cons, byteLength_cons]
    omega

/-- Characters and bytes are as many where each character is one byte. -/
theorem byteLength_eq_length_iff {cs : List Char} : byteLength cs = cs.length ↔ ∀ c ∈ cs, c.utf8Size = 1 := by
  induction cs with
  | nil => simp
  | cons c cs ih =>
    have hpos := c.utf8Size_pos
    have hle := length_le_byteLength cs
    rw [List.forall_mem_cons, ← ih, byteLength_cons, List.length_cons]
    omega

theorem byteLength_pos {w : List Char} (h : w ≠ []) : 0 < byteLength w := by
  obtain ⟨c, w, rfl⟩ := List.exists_cons_of_ne_nil h
  exact Nat.add_pos_left (Char.utf8Size_pos c) _

end SmallLisp
