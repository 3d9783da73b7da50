import SmallLisp.Text.Pieces

/-!
# File names in paths

The file name of a path is its last part, where empty parts and parts `.` at the end do not count.
A path that ends in `..`, or has no other part, names no file.
-/
namespace SmallLisp.Path

/-- A path cut at its file name. -/
structure Parts where
  /-- The parts before the file name. -/
  before : List (List Char)
  name : List Char
  /-- The parts after the file name, all of them empty or `.`. -/
  after : List (List Char)

/-- Whether a part names nothing. -/
def isIdle (part : List Char) : Bool := part == [] || part == ['.']

def split? (path : String) : Option Parts :=
  let backward := (pieces (· == '/') path.toList).reverse
  match backward.dropWhile isIdle with
  | [] => none
  | name :: before =>
    if name = ['.', '.'] then none
    else some ⟨before.reverse, name, (backward.takeWhile isIdle).reverse⟩

def join (parts : List (List Char)) : String := String.ofList (['/'].intercalate parts)

/-- A file name cut at its last dot, unless that is its first character. -/
def splitExtension (name : List Char) : List Char × Option (List Char) :=
  match name.reverse.dropWhile (· != '.') with
  | _ :: c :: stem => ((c :: stem).reverse, some (name.reverse.takeWhile (· != '.')).reverse)
  | _ => (name, none)

def stem? (path : String) : Option String :=
  (split? path).map fun p => String.ofList (splitExtension p.name).1

/-- The path up to the extension of its file name, where there is one. A path that ends in a file name
with the stem `.` leads to the parent directory, which is what it is without the extension. -/
def withoutExtension? (path : String) : Option String :=
  (split? path).bind fun p =>
    match splitExtension p.name with
    | (_, none) => none
    | (stem, some _) =>
      let stem := if stem = ['.'] ∧ p.after = [] then ['.', '.'] else stem
      some (join (p.before ++ [stem]))

example : withoutExtension? "dir.x/p.a.b" = some "dir.x/p.a" := by decide
example : withoutExtension? "dir.x/" = some "dir" := by decide
example : withoutExtension? ".hidden" = none ∧ withoutExtension? "a/.." = none := by decide
example : withoutExtension? "..a" = some ".." := by decide

end SmallLisp.Path
