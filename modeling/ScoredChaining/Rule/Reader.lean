import ScoredChaining.Rule.Error
import ScoredChaining.Rule.Term
import ScoredChaining.Text.Blank
import ScoredChaining.Text.Cut

/-!
Reading rules.

A comment begins at the first `#` outside double quotes. What stands before it is cut at the arrow,
the premises at every `&`, and the arguments of a term at every comma outside double quotes. A term
is a name, an optional prime, and everything between the first and the last parenthesis.
-/

namespace ScoredChaining

/-- The first letter of a name. -/
def isNameStart (c : Char) : Bool :=
  c.isAlpha || c == '_'

/-- A further letter of a variable's name. -/
def isNameRest (c : Char) : Bool :=
  c.isAlphanum || c == '_'

/-- A further letter of a relation's name. -/
def isRelationRest (c : Char) : Bool :=
  isNameRest c || c == '-'

/-- The name of a variable. -/
def isVariableName : List Char → Bool
  | [] => false
  | c :: rest => isNameStart c && rest.all isNameRest

/-- The text before the first `#` outside double quotes, and the text after it if there is one. -/
def splitComment (quoted : Bool) : List Char → List Char × Option (List Char)
  | [] => ([], none)
  | c :: rest =>
    if c = '#' && !quoted then ([], some rest)
    else
      let (before, after) := splitComment (if c = '"' then !quoted else quoted) rest
      (c :: before, after)

/-- The body of a rule's line and its comment, both trimmed. An empty comment is none. -/
def stripComment (line : List Char) : List Char × Option String :=
  let (before, after) := splitComment false line
  let comment := after.bind fun cs =>
    let trimmed := Text.trim cs
    if trimmed = [] then none else some (String.ofList trimmed)
  (Text.trim before, comment)

namespace Arg

/-- The texts between the commas outside double quotes. -/
def splitCommas (quoted : Bool) : List Char → List (List Char)
  | [] => [[]]
  | c :: rest =>
    if c = ',' && !quoted then [] :: splitCommas quoted rest
    else
      match splitCommas (if c = '"' then !quoted else quoted) rest with
      | [] => [[c]]
      | first :: others => (c :: first) :: others

/-- The texts of the arguments between the parentheses of a term. -/
def split (inner : List Char) : List (List Char) :=
  if Text.isBlankText inner then [] else (splitCommas false inner).map Text.trim

/-- An argument: a string in double quotes, an integer, or the name of a variable. -/
def read? : List Char → Option Arg
  | '"' :: rest =>
    if rest.getLast? = some '"' then some (.const (Value.ofToken ('"' :: rest))) else none
  | token =>
    match Decimal.readInt64? token with
    | some n => some (.const (.int n))
    | none => if isVariableName token then some (.var (String.ofList token)) else none

/-- Reads the arguments in order. -/
def readAll : List (List Char) → Except RuleFault (List Arg)
  | [] => .ok []
  | token :: rest =>
    match read? token with
    | none => .error (.badArgument (String.ofList token))
    | some a => (readAll rest).map (a :: ·)

end Arg

namespace Term

/-- The name, the prime and the text between the outer parentheses of a trimmed term. -/
def shape? : List Char → Option (List Char × Bool × List Char)
  | [] => none
  | c :: rest =>
    if isNameStart c then
      let name := c :: rest.takeWhile isRelationRest
      let (primed, afterName) :=
        match rest.dropWhile isRelationRest with
        | '\'' :: afterPrime => (true, afterPrime)
        | others => (false, others)
      match Text.trimStart afterName with
      | '(' :: inside =>
        if inside.getLast? = some ')' && !inside.dropLast.contains '\n' then
          some (name, primed, inside.dropLast)
        else none
      | _ => none
    else none

/-- Reads a term. -/
def read (text : List Char) : Except RuleFault Term :=
  let trimmed := Text.trim text
  match shape? trimmed with
  | none => .error (.malformedTerm (String.ofList trimmed))
  | some (name, primed, inner) =>
    let relation := String.ofList name
    match Arg.readAll (Arg.split inner) with
    | .error fault => .error fault
    | .ok args =>
      if primed then
        match args with
        | .var v :: rest => .ok ⟨relation, some v, rest⟩
        | _ => .error (.missingFactVariable relation)
      else .ok ⟨relation, none, args⟩

/-- Reads terms in order. -/
def readAll : List (List Char) → Except RuleFault (List Term)
  | [] => .ok []
  | text :: rest =>
    match read text with
    | .error fault => .error fault
    | .ok t => (readAll rest).map (t :: ·)

end Term

namespace Rule

/-- Reads the premises and the conclusion. -/
def readBody (body : List Char) : Except RuleFault (List Term × Term) :=
  match Text.cut ['=', '>'] body with
  | none => .error .missingArrow
  | some (left, right) =>
    if Text.occurs ['=', '>'] right then .error .secondArrow
    else
      match Term.readAll (Text.pieces '&' left) with
      | .error fault => .error fault
      | .ok premises =>
        match Term.read right with
        | .error fault => .error fault
        | .ok conclusion =>
          if conclusion.isPrimed then .error .primedConclusion else .ok (premises, conclusion)

/-- Reads a rule from a line. A failure names the line without its comment. -/
def readLine (line : List Char) : Except RuleError Rule :=
  let (body, comment) := stripComment line
  match readBody body with
  | .error fault => .error (.fault (String.ofList body) fault)
  | .ok (premises, conclusion) => .ok ⟨premises, conclusion, comment⟩

/-- Reads a rule. -/
def read (text : String) : Except RuleError Rule :=
  readLine text.toList

/-- Reads one rule from each line that holds more than a comment. The first bad line is the one
reported. -/
def readMany (text : String) : Except RuleError (List Rule) :=
  ((Text.lines text.toList).filter fun line => (stripComment line).1 ≠ []).mapM readLine

end Rule

end ScoredChaining
