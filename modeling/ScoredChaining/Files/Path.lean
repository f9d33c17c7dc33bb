import ScoredChaining.Text.Cut

/-!
Paths: names with separators between them.
-/

namespace ScoredChaining.Path

/-- The path starts at the root. -/
def isAbsolute (path : String) : Bool :=
  path.toList.head? = some '/'

/-- The names in a path, in order. Between two separators in a row stands the empty name. -/
def names (path : String) : List String :=
  (Text.pieces '/' path.toList).map String.ofList

/-- The name stands for the directory it is looked up in. -/
def isSelf (name : String) : Bool :=
  name = "" || name = "."

/-- Drops the separators, and the references to the directory itself, at the end of a path whose
characters come last one first. -/
def trim : List Char → List Char
  | '/' :: rest => trim rest
  | '.' :: '/' :: rest => trim rest
  | reversed => reversed

/-- The directory that a path lies in: the empty path for a name alone, and none for a root. -/
def parent? (path : String) : Option String :=
  let reversed := trim path.toList.reverse
  if reversed = [] then none
  else
    let above := trim (reversed.dropWhile (· ≠ '/'))
    if above = [] then some (if isAbsolute path then "/" else "")
    else some (String.ofList above.reverse)

end ScoredChaining.Path
