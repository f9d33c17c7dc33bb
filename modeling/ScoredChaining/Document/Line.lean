import ScoredChaining.Diagnostic
import ScoredChaining.Text.Blank
import ScoredChaining.Text.Cut
import ScoredChaining.Value

/-!
The lines of a fact file. Each is a command: a declaration, a schema fact, an observed fact, a gold
fact, or the start of a document.

A comment begins at the first `#`, wherever it stands. The rest is cut into tokens at blanks
outside double quotes.
-/

namespace ScoredChaining

/-- A command of a fact file. -/
inductive FactLine where
  /-- Declares a relation over named types. -/
  | declaration (relation : String) (types : List String)
  /-- A fact that outlives the document. -/
  | schemaFact (relation : String) (values : List Value)
  /-- An observed fact of the document. -/
  | fact (relation : String) (values : List Value)
  /-- A fact that ought to be derived in the document. -/
  | label (relation : String) (values : List Value)
  | startDocument (id : String)
  deriving Repr, DecidableEq, Inhabited

/-- What is wrong with a line. -/
inductive LineFault where
  | openQuote
  | missingRelation (command : String)
  | malformedType (token : String)
  /-- The start of a document has no name, or more than one. -/
  | oneDocumentId
  deriving Repr, DecidableEq

/-- The wording of a fault. -/
def LineFault.message : LineFault → String
  | .openQuote => "unterminated quote"
  | .missingRelation command => command ++ " needs a relation name"
  | .malformedType token => "malformed type " ++ token
  | .oneDocumentId => "startdoc takes exactly one document id"

/-- Failures of reading fact files. Lines are counted from one. -/
inductive DocumentError where
  | unreadable (path : String) (cause : SystemError)
  | unknownCommand (line : Nat) (command : String)
  | malformed (line : Nat) (cause : LineFault)
  deriving Repr, DecidableEq

/-- The wording of a failure. -/
def DocumentError.diagnostic : DocumentError → Diagnostic
  | .unreadable path cause =>
    .of "facts" "io" ("failed to read " ++ path ++ ": " ++ cause.message)
      "Check that the file exists and is readable."
  | .unknownCommand line command =>
    .of "facts" "unknown_command"
      ("line " ++ toString line ++ ": unknown command \"" ++ command ++ "\"")
      "Fact lines start with one of: def, schema, x, y, startdoc."
  | .malformed line cause =>
    .of "facts" "parse" ("line " ++ toString line ++ ": " ++ cause.message)
      ("Expected `def rel <type>...`, `x rel v...`, `y rel v...`, `schema rel v...` or " ++
        "`startdoc id`.")

instance : Explained DocumentError := ⟨DocumentError.diagnostic⟩

namespace FactLine

/-- The token whose characters stand in `reversed`, in front of the others, if it has any. -/
def closeToken (reversed : List Char) (others : List (List Char)) : List (List Char) :=
  if reversed = [] then others else reversed.reverse :: others

/-- `tokens?` within a token whose characters so far stand in `reversed`, last one first. -/
def tokensFrom? (quoted : Bool) (reversed : List Char) : List Char → Option (List (List Char))
  | [] => if quoted then none else some (closeToken reversed [])
  | c :: rest =>
    if c = '"' then tokensFrom? (!quoted) (c :: reversed) rest
    else if Text.isBlank c && !quoted then (tokensFrom? false [] rest).map (closeToken reversed)
    else tokensFrom? quoted (c :: reversed) rest

/-- The tokens between the blanks outside double quotes, with their quotes. There are none if a
quote stays open. -/
def tokens? (body : List Char) : Option (List (List Char)) :=
  tokensFrom? false [] body

/-- The text before the first `#`, trimmed. -/
def stripComment (line : List Char) : List Char :=
  match Text.cut ['#'] line with
  | some (before, _) => Text.trim before
  | none => Text.trim line

/-- The name of a type, which may stand between angle brackets. -/
def readType : List Char → Except LineFault String
  | '<' :: rest =>
    if rest.getLast? = some '>' && rest.dropLast ≠ [] then .ok (String.ofList rest.dropLast)
    else .error (.malformedType (String.ofList ('<' :: rest)))
  | name => .ok (String.ofList name)

/-- The names of types, in order. -/
def readTypes : List (List Char) → Except LineFault (List String)
  | [] => .ok []
  | token :: rest =>
    match readType token with
    | .error fault => .error fault
    | .ok type => (readTypes rest).map (type :: ·)

/-- The arguments of a command that begins with the name of a relation. -/
def readRelation (command : String) (make : String → List (List Char) → Except LineFault FactLine) :
    List (List Char) → Except LineFault FactLine
  | [] => .error (.missingRelation command)
  | relation :: rest => make (String.ofList relation) rest

/-- Reads the tokens of a line. -/
def ofTokens (line : Nat) (command : List Char) (arguments : List (List Char)) :
    Except DocumentError FactLine :=
  let name := String.ofList command
  let withValues (make : String → List Value → FactLine) : Except LineFault FactLine :=
    readRelation name (fun relation rest => .ok (make relation (rest.map Value.ofToken))) arguments
  let result : Option (Except LineFault FactLine) :=
    match name with
    | "def" =>
      some (readRelation name
        (fun relation rest => (readTypes rest).map (declaration relation)) arguments)
    | "schema" => some (withValues schemaFact)
    | "x" => some (withValues fact)
    | "y" => some (withValues label)
    | "startdoc" =>
      match arguments with
      | [id] => some (.ok (startDocument (String.ofList id)))
      | _ => some (.error .oneDocumentId)
    | _ => none
  match result with
  | none => .error (.unknownCommand line name)
  | some (.error fault) => .error (.malformed line fault)
  | some (.ok command) => .ok command

/-- Reads a line with its number. A line without a command is none. -/
def read (line : Nat) (text : List Char) : Except DocumentError (Option FactLine) :=
  match tokens? (stripComment text) with
  | none => .error (.malformed line .openQuote)
  | some [] => .ok none
  | some (command :: arguments) => (ofTokens line command arguments).map some

/-- Reads lines, the first of which has the number `line`. -/
def readFrom (line : Nat) : List (List Char) → Except DocumentError (List FactLine)
  | [] => .ok []
  | text :: rest =>
    match read line text with
    | .error e => .error e
    | .ok none => readFrom (line + 1) rest
    | .ok (some command) => (readFrom (line + 1) rest).map (command :: ·)

/-- Reads a fact file. The first bad line is the one reported. -/
def readMany (text : String) : Except DocumentError (List FactLine) :=
  readFrom 1 (Text.lines text.toList)

end FactLine

end ScoredChaining
