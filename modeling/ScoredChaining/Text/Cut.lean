/-!
Cutting text at marks: at the first occurrence (`cut`), at every occurrence of one character
(`pieces`) and at line ends (`lines`).

Nothing is lost: `eq_of_cut` puts the two parts and the mark together again, and
`intercalate_pieces` does so for the pieces.
-/

namespace ScoredChaining.Text

/-- The text before and after the first occurrence of `mark`. -/
def cut (mark : List Char) : List Char → Option (List Char × List Char)
  | [] => if mark = [] then some ([], []) else none
  | c :: rest =>
    if mark.isPrefixOf (c :: rest) then some ([], (c :: rest).drop mark.length)
    else (cut mark rest).map fun parts => (c :: parts.1, parts.2)

/-- `mark` occurs in the text. -/
def occurs (mark cs : List Char) : Bool :=
  (cut mark cs).isSome

/-- The texts between the occurrences of `sep`: one more than there are occurrences. -/
def pieces (sep : Char) : List Char → List (List Char)
  | [] => [[]]
  | c :: rest =>
    if c = sep then [] :: pieces sep rest
    else
      match pieces sep rest with
      | [] => [[c]]
      | first :: others => (c :: first) :: others

/-- The line whose characters stand in `reversed`, without a carriage return at its end. -/
def closeLine : List Char → List Char
  | '\r' :: reversed => reversed.reverse
  | reversed => reversed.reverse

/-- `lines` with the characters of the unfinished line, last one first. -/
def linesFrom (reversed : List Char) : List Char → List (List Char)
  | [] => if reversed = [] then [] else [reversed.reverse]
  | '\n' :: rest => closeLine reversed :: linesFrom [] rest
  | c :: rest => linesFrom (c :: reversed) rest

/-- The lines of a text. A line ends at a line feed, which may follow a carriage return; the text
after the last line feed is a line unless it is empty. -/
def lines (cs : List Char) : List (List Char) :=
  linesFrom [] cs

theorem eq_of_cut {mark cs before after : List Char} (h : cut mark cs = some (before, after)) :
    cs = before ++ mark ++ after := by
  induction cs generalizing before with
  | nil =>
    simp only [cut] at h
    split at h <;> simp_all
  | cons c rest ih =>
    simp only [cut] at h
    split at h
    case isTrue starts =>
      obtain ⟨rfl, rfl⟩ := by simpa using h
      obtain ⟨tail, eq⟩ := List.isPrefixOf_iff_prefix.mp starts
      simp [← eq]
    case isFalse =>
      obtain ⟨parts, found, eq⟩ := Option.map_eq_some_iff.mp h
      obtain ⟨rfl, rfl⟩ := by simpa using eq
      simp [ih found]

theorem pieces_ne_nil (sep : Char) (cs : List Char) : pieces sep cs ≠ [] := by
  cases cs with
  | nil => simp [pieces]
  | cons c rest => simp only [pieces]; split <;> (try split) <;> simp

theorem intercalate_pieces (sep : Char) (cs : List Char) :
    [sep].intercalate (pieces sep cs) = cs := by
  induction cs with
  | nil => simp [pieces, List.intercalate]
  | cons c rest ih =>
    simp only [pieces]
    split
    · rename_i same
      subst same
      obtain ⟨first, others, eq⟩ := List.exists_cons_of_ne_nil (pieces_ne_nil c rest)
      rw [eq] at ih ⊢
      simpa [List.intercalate] using ih
    · obtain ⟨first, others, eq⟩ := List.exists_cons_of_ne_nil (pieces_ne_nil sep rest)
      rw [eq] at ih ⊢
      cases others with
      | nil => simp_all [List.intercalate]
      | cons second others => simpa [List.intercalate] using ih

end ScoredChaining.Text
