import ScoredChaining.Decimal.Layout

/-!
JSON texts and their written form: no blanks, members in the order in which they are given.
-/

namespace ScoredChaining

/-- A JSON text. -/
inductive Json where
  | null
  | bool (b : Bool)
  /-- A number by its literal. -/
  | number (literal : String)
  | str (s : String)
  | array (items : List Json)
  | object (members : List (String × Json))
  deriving Repr, Inhabited

namespace Json

/-- A natural number. -/
def ofNat (n : Nat) : Json :=
  .number (String.ofList (Decimal.showNat n))

/-- A double: the fewest digits that read back, and nothing for what is not a finite number. -/
def ofFloat (x : Float) : Json :=
  if x.isNaN || x.isInf then .null else .number (Decimal.Layout.scientific.render x)

/-- An optional text, `null` if there is none. -/
def ofOption {α : Type} (make : α → Json) : Option α → Json
  | none => .null
  | some a => make a

/-- The digit for a number below sixteen, in lower case. -/
def hexDigit (n : Nat) : Char :=
  Nat.digitChar n

/-- The character inside a string. -/
def escape (c : Char) : List Char :=
  match c with
  | '"' => ['\\', '"']
  | '\\' => ['\\', '\\']
  | '\n' => ['\\', 'n']
  | '\r' => ['\\', 'r']
  | '\t' => ['\\', 't']
  | c =>
    if c.toNat = 8 then ['\\', 'b']
    else if c.toNat = 12 then ['\\', 'f']
    else if c.toNat < 32 then
      ['\\', 'u', '0', '0', hexDigit (c.toNat / 16), hexDigit (c.toNat % 16)]
    else [c]

/-- A string between quotes. -/
def quoted (s : String) : String :=
  "\"" ++ String.ofList (s.toList.flatMap escape) ++ "\""

mutual

/-- The written form. -/
def render : Json → String
  | .null => "null"
  | .bool b => if b then "true" else "false"
  | .number literal => literal
  | .str s => quoted s
  | .array items => "[" ++ ",".intercalate (renderItems items) ++ "]"
  | .object members => "\x7b" ++ ",".intercalate (renderMembers members) ++ "\x7d"

/-- The written forms of the items. -/
def renderItems : List Json → List String
  | [] => []
  | item :: rest => item.render :: renderItems rest

/-- The written forms of the members. -/
def renderMembers : List (String × Json) → List String
  | [] => []
  | (key, item) :: rest => (quoted key ++ ":" ++ item.render) :: renderMembers rest

end

end Json

end ScoredChaining
