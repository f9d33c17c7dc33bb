import ScoredChaining.Toml.Scalar
import ScoredChaining.Toml.Table

/-!
Reading TOML: keys, values, and the sections of a document, each a header with the entries below it.

Values may be nested 79 deep, and a dotted key has fewer than 80 parts.
-/

namespace ScoredChaining.Toml

/-- The number of nested values, and of parts of a key, that is too large. -/
def nestingLimit : Nat := 80

/-! ### Keys -/

/-- A character of a key without quotes. -/
def isKeyChar (c : Char) : Bool :=
  c.isAlphanum || c = '_' || c = '-'

/-- A part of a key. -/
def readKeyPart : List Char → Option (String × List Char)
  | '"' :: rest => readBasic [] rest
  | '\'' :: rest => readLiteral [] rest
  | cs =>
    let bare := cs.takeWhile isKeyChar
    if bare = [] then none else some (String.ofList bare, cs.dropWhile isKeyChar)

/-- The parts of a key, with dots and blanks between them. The fuel is at least the length of the
text. -/
def readKeyParts : (fuel : Nat) → List Char → Option (List String × List Char)
  | 0, _ => none
  | fuel + 1, cs =>
    match readKeyPart (skipBlanks cs) with
    | none => none
    | some (part, rest) =>
      match skipBlanks rest with
      | '.' :: rest => (readKeyParts fuel rest).map fun (parts, rest) => (part :: parts, rest)
      | rest => some ([part], rest)

/-- A key. -/
def readKey (cs : List Char) : Option (List String × List Char) :=
  match readKeyParts (cs.length + 1) cs with
  | none => none
  | some (parts, rest) => if parts.length < nestingLimit then some (parts, rest) else none

/-! ### Values -/

mutual

/-- A value within `depth` arrays and braces. The fuel is at least twice the length of the text. -/
def readValue : (fuel depth : Nat) → List Char → Option (Toml × List Char)
  | 0, _, _ => none
  | fuel + 1, depth, cs =>
    match cs with
    | '[' :: rest =>
      if nestingLimit ≤ depth + 1 then none
      else (readItems fuel (depth + 1) rest).map fun (items, rest) => (.array items, rest)
    | '\x7b' :: rest =>
      if nestingLimit ≤ depth + 1 then none
      else
        match skipBlanks rest with
        | '\x7d' :: rest => some (.table .braced [], rest)
        | rest =>
          match readEntries fuel (depth + 1) rest with
          | none => none
          | some (entries, rest) =>
            (addEntries .braced entries []).map fun members => (.table .braced members, rest)
    | cs => readScalar cs

/-- The items up to the closing bracket, with commas between them and perhaps after the last. -/
def readItems : (fuel depth : Nat) → List Char → Option (List Toml × List Char)
  | 0, _, _ => none
  | fuel + 1, depth, cs =>
    match skipLines (cs.length + 1) cs with
    | none => none
    | some (']' :: rest) => some ([], rest)
    | some cs =>
      match readValue fuel depth cs with
      | none => none
      | some (item, rest) =>
        match skipLines (rest.length + 1) rest with
        | some (']' :: rest) => some ([item], rest)
        | some (',' :: rest) =>
          (readItems fuel depth rest).map fun (items, rest) => (item :: items, rest)
        | _ => none

/-- At least one entry up to the closing brace, with commas between them. -/
def readEntries : (fuel depth : Nat) → List Char → Option (List Entry × List Char)
  | 0, _, _ => none
  | fuel + 1, depth, cs =>
    match readEntry fuel depth cs with
    | none => none
    | some (entry, rest) =>
      match skipBlanks rest with
      | '\x7d' :: rest => some ([entry], rest)
      | ',' :: rest =>
        (readEntries fuel depth rest).map fun (entries, rest) => (entry :: entries, rest)
      | _ => none

/-- A key, an equals sign and a value. -/
def readEntry : (fuel depth : Nat) → List Char → Option (Entry × List Char)
  | 0, _, _ => none
  | fuel + 1, depth, cs =>
    match readKey cs with
    | some (key, '=' :: rest) =>
      (readValue fuel depth (skipBlanks rest)).map fun (item, rest) => (⟨key, item⟩, rest)
    | _ => none

end

/-! ### Documents -/

/-- A header between brackets. -/
def readHeader : List Char → Option (Header × List Char)
  | '[' :: '[' :: rest =>
    match readKey rest with
    | some (path, ']' :: ']' :: rest) => some (.row path, rest)
    | _ => none
  | '[' :: rest =>
    match readKey rest with
    | some (path, ']' :: rest) => some (.table path, rest)
    | _ => none
  | _ => none

/-- The entries of the present section, and the sections after it. The fuel is at least the length
of the text. -/
def readSections : (fuel : Nat) → List Char → Option (List Entry × List Section)
  | 0, _ => none
  | fuel + 1, cs =>
    match skipLines (cs.length + 1) cs with
    | none => none
    | some [] => some ([], [])
    | some ('[' :: rest) =>
      match readHeader ('[' :: rest) with
      | none => none
      | some (header, rest) =>
        match readLineEnd rest with
        | none => none
        | some rest =>
          (readSections fuel rest).map fun (entries, sections) =>
            ([], ⟨header, entries⟩ :: sections)
    | some cs =>
      match readEntry (2 * cs.length + 4) 0 cs with
      | none => none
      | some (entry, rest) =>
        match readLineEnd rest with
        | none => none
        | some rest =>
          (readSections fuel rest).map fun (entries, sections) => (entry :: entries, sections)

/-- The text without a byte order mark at its start. -/
def dropMark : List Char → List Char
  | '\uFEFF' :: rest => rest
  | cs => cs

/-- Reads a document as the table of all that is in it. -/
def read? (text : String) : Option Members :=
  let cs := dropMark text.toList
  match readSections (cs.length + 1) cs with
  | none => none
  | some (entries, sections) =>
    match addEntries .headed entries [] with
    | none => none
    | some root => sections.foldlM (fun root s => s.addTo root) root

end ScoredChaining.Toml
