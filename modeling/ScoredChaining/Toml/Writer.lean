import ScoredChaining.Decimal.Layout
import ScoredChaining.Toml.Basic

/-!
Writing TOML: strings in the form that needs the fewest escapes, and arrays of strings.
-/

namespace ScoredChaining.Toml

/-- How a string is delimited. -/
inductive StringForm where
  | basic
  | literal
  | longBasic
  | longLiteral
  deriving Repr, DecidableEq

/-- A control character that no form can hold as it is. A line feed is none, as the long forms hold
it, and a tab is none. -/
def needsCode (c : Char) : Bool :=
  (c.toNat < 32 && c ≠ '\t' && c ≠ '\n') || c.toNat = 127

/-- More than `most` of the characters `c` follow each other, `run` of them before the text. -/
def hasRun (c : Char) (most run : Nat) : List Char → Bool
  | [] => most < run
  | d :: rest => if d = c then hasRun c most (run + 1) rest else most < run || hasRun c most 0 rest

/-- A form can hold the text without escapes, but for tabs. -/
def StringForm.fits (cs : List Char) : StringForm → Bool
  | .basic => !cs.any fun c => needsCode c || c = '\\' || c = '"' || c = '\n'
  | .literal => !cs.any fun c => needsCode c || c = '\'' || c = '\n'
  | .longBasic => !(cs.any fun c => needsCode c || c = '\\') && !hasRun '"' 2 0 cs
  | .longLiteral => !cs.any needsCode && !hasRun '\'' 2 0 cs

/-- The first form that can hold the text without escapes, or one with escapes. -/
def StringForm.of (cs : List Char) : StringForm :=
  match [basic, literal, longBasic, longLiteral].find? (fits cs) with
  | some form => form
  | none => if cs.contains '\n' then .longBasic else .basic

/-- `width` digits of a number in base sixteen, in upper case. -/
def upperHex (width n : Nat) : List Char :=
  let digits := (Nat.toDigits 16 n).map Char.toUpper
  List.replicate (width - digits.length) '0' ++ digits

/-- The text in a form with escapes, in which `most` quotes may follow each other and `run` of them
stand before it. -/
def escape (long : Bool) (most run : Nat) : List Char → List Char
  | [] => []
  | '"' :: rest =>
    if most ≤ run then '\\' :: '"' :: escape long most 0 rest
    else '"' :: escape long most (run + 1) rest
  | c :: rest =>
    let written :=
      match c with
      | '\t' => ['\\', 't']
      | '\n' => if long then ['\n'] else ['\\', 'n']
      | '\r' => ['\\', 'r']
      | '\\' => ['\\', '\\']
      | c =>
        if c.toNat = 8 then ['\\', 'b']
        else if c.toNat = 12 then ['\\', 'f']
        else if needsCode c then '\\' :: 'u' :: upperHex 4 c.toNat
        else [c]
    written ++ escape long most 0 rest

/-- A string. In the long forms a text of several lines begins on a line of its own. -/
def renderString (s : String) : String :=
  let cs := s.toList
  let start := if cs.contains '\n' then "\n" else ""
  match StringForm.of cs with
  | .basic => "\"" ++ String.ofList (escape false 0 0 cs) ++ "\""
  | .literal => "'" ++ s ++ "'"
  | .longBasic => "\"\"\"" ++ start ++ String.ofList (escape true 2 0 cs) ++ "\"\"\""
  | .longLiteral => "'''" ++ start ++ s ++ "'''"

/-- An array of strings: up to one in a line, several on a line each. -/
def renderStrings (items : List String) : String :=
  match items with
  | first :: second :: rest =>
    let row (s : String) : String := "    " ++ renderString s ++ ",\n"
    "[\n" ++ String.join ((first :: second :: rest).map row) ++ "]"
  | few => "[" ++ String.join (few.map renderString) ++ "]"

/-- A floating-point number. -/
def renderFloat (x : Float) : String :=
  Decimal.Layout.pointed.render x

/-- A Boolean. -/
def renderBool (b : Bool) : String :=
  if b then "true" else "false"

/-- A natural number, unless it is too large for an integer. -/
def renderNat? (n : Nat) : Option String :=
  if n ≤ Int64.maxValue.toInt then some (String.ofList (Decimal.showNat n)) else none

end ScoredChaining.Toml
