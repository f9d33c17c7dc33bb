import ScoredChaining.Json.Basic

/-!
Reading JSON texts: nothing but blanks may follow, and arrays and objects may be nested 127 deep.

Every reader takes the text and answers with what it has read and the rest of the text.
-/

namespace ScoredChaining.Json

/-- How deep arrays and objects may be nested. -/
def maxDepth : Nat := 127

/-- A blank between the parts of a text. -/
def isBlank (c : Char) : Bool :=
  c = ' ' || c = '\n' || c = '\r' || c = '\t'

/-- Drops the blanks at the start. -/
def skipBlanks (cs : List Char) : List Char :=
  cs.dropWhile isBlank

/-- The number that a hexadecimal digit stands for. -/
def hexValue? (c : Char) : Option Nat :=
  if Decimal.isDigit c then some (Decimal.digitValue c)
  else if 'a' ≤ c && c ≤ 'f' then some (c.toNat - 'a'.toNat + 10)
  else if 'A' ≤ c && c ≤ 'F' then some (c.toNat - 'A'.toNat + 10)
  else none

/-- The number that hexadecimal digits stand for. -/
def ofHex? (cs : List Char) : Option Nat :=
  cs.foldlM (fun n c => (hexValue? c).map (16 * n + ·)) 0

/-- A number stands for the first half of a pair of surrogates. -/
def isHighSurrogate (n : Nat) : Bool :=
  0xD800 ≤ n && n ≤ 0xDBFF

/-- A number stands for the second half of a pair of surrogates. -/
def isLowSurrogate (n : Nat) : Bool :=
  0xDC00 ≤ n && n ≤ 0xDFFF

/-- The character for a pair of surrogates. -/
def ofSurrogates (high low : Nat) : Char :=
  Char.ofNat (0x10000 + (high - 0xD800) * 0x400 + (low - 0xDC00))

/-- The character that a letter after a backslash stands for. -/
def unescape? : Char → Option Char
  | '"' => some '"'
  | '\\' => some '\\'
  | '/' => some '/'
  | 'b' => some (Char.ofNat 8)
  | 'f' => some (Char.ofNat 12)
  | 'n' => some '\n'
  | 'r' => some '\r'
  | 't' => some '\t'
  | _ => none

/-- The characters up to the closing quote, given those read so far, last one first. The halves of a
pair of surrogates stand together only. -/
def readString (reversed : List Char) : List Char → Option (String × List Char)
  | [] => none
  | '"' :: rest => some (String.ofList reversed.reverse, rest)
  | '\\' :: 'u' :: a :: b :: c :: d :: rest =>
    match ofHex? [a, b, c, d] with
    | none => none
    | some n =>
      if isLowSurrogate n then none
      else if isHighSurrogate n then
        match rest with
        | '\\' :: 'u' :: e :: f :: g :: h :: rest =>
          match ofHex? [e, f, g, h] with
          | none => none
          | some low =>
            if isLowSurrogate low then readString (ofSurrogates n low :: reversed) rest else none
        | _ => none
      else readString (Char.ofNat n :: reversed) rest
  | '\\' :: c :: rest =>
    match unescape? c with
    | none => none
    | some c => readString (c :: reversed) rest
  | c :: rest =>
    if c = '\\' || c.toNat < 32 then none else readString (c :: reversed) rest

/-- A run of at least one digit. -/
def readDigits (cs : List Char) : Option (List Char × List Char) :=
  let digits := cs.takeWhile Decimal.isDigit
  if digits = [] then none else some (digits, cs.dropWhile Decimal.isDigit)

/-- The whole part of a number, without a leading zero unless it is zero. -/
def readWhole : List Char → Option (List Char × List Char)
  | '0' :: rest =>
    match rest with
    | c :: _ => if Decimal.isDigit c then none else some (['0'], rest)
    | [] => some (['0'], [])
  | cs => readDigits cs

/-- The places of a number, with the point. -/
def readPlaces : List Char → Option (List Char × List Char)
  | '.' :: rest => (readDigits rest).map fun (digits, rest) => ('.' :: digits, rest)
  | cs => some ([], cs)

/-- The exponent of a number. -/
def readPower : List Char → Option (List Char × List Char)
  | c :: rest =>
    if c = 'e' || c = 'E' then
      let (sign, rest) :=
        match rest with
        | '+' :: rest => (['+'], rest)
        | '-' :: rest => (['-'], rest)
        | rest => ([], rest)
      (readDigits rest).map fun (digits, rest) => (c :: sign ++ digits, rest)
    else some ([], c :: rest)
  | [] => some ([], [])

/-- A number. -/
def readNumber (cs : List Char) : Option (Json × List Char) := do
  let (sign, cs) :=
    match cs with
    | '-' :: rest => (['-'], rest)
    | cs => ([], cs)
  let (whole, cs) ← readWhole cs
  let (places, cs) ← readPlaces cs
  let (power, cs) ← readPower cs
  return (.number (String.ofList (sign ++ whole ++ places ++ power)), cs)

/-- The text after a word. -/
def expect (word cs : List Char) : Option (List Char) :=
  if word.isPrefixOf cs then some (cs.drop word.length) else none

/-- A word, a number, or nothing. -/
def readScalar (cs : List Char) : Option (Json × List Char) :=
  match cs with
  | 'n' :: _ => (expect ['n', 'u', 'l', 'l'] cs).map fun rest => (.null, rest)
  | 't' :: _ => (expect ['t', 'r', 'u', 'e'] cs).map fun rest => (.bool true, rest)
  | 'f' :: _ => (expect ['f', 'a', 'l', 's', 'e'] cs).map fun rest => (.bool false, rest)
  | _ => readNumber cs

mutual

/-- A value after blanks, within `depth` more arrays and objects. The fuel is at least twice the
length of the text. -/
def readValue : (fuel depth : Nat) → List Char → Option (Json × List Char)
  | 0, _, _ => none
  | fuel + 1, depth, cs =>
    match skipBlanks cs with
    | '"' :: rest => (readString [] rest).map fun (s, rest) => (.str s, rest)
    | '[' :: rest =>
      if depth = 0 then none
      else
        match skipBlanks rest with
        | ']' :: rest => some (.array [], rest)
        | rest => (readItems fuel (depth - 1) rest).map fun (items, rest) => (.array items, rest)
    | '\x7b' :: rest =>
      if depth = 0 then none
      else
        match skipBlanks rest with
        | '\x7d' :: rest => some (.object [], rest)
        | rest =>
          (readMembers fuel (depth - 1) rest).map fun (members, rest) => (.object members, rest)
    | cs => readScalar cs

/-- At least one item, with commas between them, and the closing bracket. -/
def readItems : (fuel depth : Nat) → List Char → Option (List Json × List Char)
  | 0, _, _ => none
  | fuel + 1, depth, cs =>
    (readValue fuel depth cs).bind fun (item, rest) =>
      match skipBlanks rest with
      | ']' :: rest => some ([item], rest)
      | ',' :: rest =>
        (readItems fuel depth rest).map fun (items, rest) => (item :: items, rest)
      | _ => none

/-- At least one member, with commas between them, and the closing brace. -/
def readMembers : (fuel depth : Nat) → List Char → Option (List (String × Json) × List Char)
  | 0, _, _ => none
  | fuel + 1, depth, cs =>
    match skipBlanks cs with
    | '"' :: rest =>
      (readString [] rest).bind fun (key, rest) =>
        match skipBlanks rest with
        | ':' :: rest =>
          (readValue fuel depth rest).bind fun (item, rest) =>
            match skipBlanks rest with
            | '\x7d' :: rest => some ([(key, item)], rest)
            | ',' :: rest =>
              (readMembers fuel depth rest).map fun (members, rest) =>
                ((key, item) :: members, rest)
            | _ => none
        | _ => none
    | _ => none

end

/-- Reads a text. -/
def read? (text : String) : Option Json :=
  let cs := text.toList
  match readValue (2 * cs.length + 2) maxDepth cs with
  | some (json, rest) => if skipBlanks rest = [] then some json else none
  | none => none

end ScoredChaining.Json
