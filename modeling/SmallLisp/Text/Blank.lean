import SmallLisp.Text.Pieces

/-!
# Blanks of Unicode

The characters with the property `White_Space`, and the words that they separate.
-/
namespace SmallLisp

/-- Ranges of code points with the property `White_Space`. -/
def blankRanges : List (Nat × Nat) :=
  [(0x9, 0xD), (0x20, 0x20), (0x85, 0x85), (0xA0, 0xA0), (0x1680, 0x1680), (0x2000, 0x200A),
    (0x2028, 0x2029), (0x202F, 0x202F), (0x205F, 0x205F), (0x3000, 0x3000)]

def isUnicodeBlank (c : Char) : Bool := blankRanges.any fun (low, high) => low ≤ c.toNat && c.toNat ≤ high

/-- The runs of characters between blanks. -/
def words (text : String) : List String :=
  ((pieces isUnicodeBlank text.toList).filter (!·.isEmpty)).map String.ofList

example : (blankRanges.map fun (low, high) => high + 1 - low).sum = 25 := rfl

end SmallLisp
