import ScoredChaining.Document.Line
import ScoredChaining.Json.Reader
import ScoredChaining.Value

/-!
Values and fact lines as JSON. A value is an object with one member, whose key names the kind of the
value; a fact line is an object whose member `command` names the command.
-/

namespace ScoredChaining

namespace Value

mutual

/-- The value as an object with one member. -/
def toJson : Value → Json
  | .int n => .object [("Int", .number (String.ofList (Decimal.showInt64 n)))]
  | .str s => .object [("Str", .str s)]
  | .tuple items => .object [("Tuple", .array (allToJson items))]

/-- The values, each as an object. -/
def allToJson : List Value → List Json
  | [] => []
  | v :: rest => v.toJson :: allToJson rest

end

/-- The integer that the literal of a number denotes: only digits after an optional minus, and no
negative zero. -/
def ofLiteral? (literal : String) : Option Value :=
  match literal.toList with
  | '-' :: ['0'] => none
  | cs => (Decimal.readInt64? cs).map .int

mutual

/-- The value that an object with one member denotes. -/
def ofJson? : Json → Option Value
  | .object [(kind, content)] => ofContent? kind content
  | _ => none

/-- The value of a kind with this content. -/
def ofContent? (kind : String) : Json → Option Value
  | .number literal => if kind = "Int" then ofLiteral? literal else none
  | .str s => if kind = "Str" then some (.str s) else none
  | .array items => if kind = "Tuple" then (allOfJson? items).map .tuple else none
  | _ => none

/-- The values that objects denote. -/
def allOfJson? : List Json → Option (List Value)
  | [] => some []
  | item :: rest =>
    match ofJson? item with
    | none => none
    | some v => (allOfJson? rest).map (v :: ·)

end

end Value

/-- The line as an object. -/
def FactLine.toJson : FactLine → Json
  | .declaration relation types =>
    .object [("command", .str "def"), ("relation", .str relation),
      ("types", .array (types.map .str))]
  | .schemaFact relation values => withValues "schema" relation values
  | .fact relation values => withValues "fact" relation values
  | .label relation values => withValues "label" relation values
  | .startDocument id => .object [("command", .str "startdoc"), ("id", .str id)]
where
  /-- The object for a command with values. -/
  withValues (command relation : String) (values : List Value) : Json :=
    .object [("command", .str command), ("relation", .str relation),
      ("values", .array (Value.allToJson values))]

end ScoredChaining
