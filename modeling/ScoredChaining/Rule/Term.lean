import ScoredChaining.Schema
import ScoredChaining.Value

/-!
Rules as they are written: premises joined by `&`, an arrow, and a conclusion.

A term is a relation with arguments. A primed term `r'(f, x)` names the fact itself as well: its
first argument is a variable for the witness of the fact. Variables that premises share are the
conditions under which facts are joined.
-/

namespace ScoredChaining

/-- An argument of a term. -/
inductive Arg where
  | var (name : String)
  | const (value : Value)
  deriving Repr, DecidableEq, Inhabited

namespace Arg

/-- The name, if the argument is a variable. -/
def name? : Arg → Option String
  | .var name => some name
  | .const _ => none

/-- The text of an argument: strings are in double quotes. -/
def text : Arg → String
  | .var name => name
  | .const (.str s) => "\"" ++ s ++ "\""
  | .const v => v.text

end Arg

/-- A relation with arguments, and a variable for the fact itself if the term is primed. -/
structure Term where
  relation : String
  factVariable : Option String
  args : List Arg
  deriving Repr, DecidableEq, Inhabited

namespace Term

/-- The term is primed. -/
def isPrimed (t : Term) : Bool :=
  t.factVariable.isSome

/-- The argument at a position; the fact variable stands at the head. -/
def argAt? (t : Term) : Position → Option Arg
  | .head => t.factVariable.map .var
  | .tail i => t.args[i]?

/-- The arguments with their positions, the first of them at `i`. -/
def placedFrom (i : Nat) : List Arg → List (Position × Arg)
  | [] => []
  | a :: rest => (.tail i, a) :: placedFrom (i + 1) rest

/-- The positions with their arguments: the head of a primed term, then the tail. -/
def positions (t : Term) : List (Position × Arg) :=
  match t.factVariable with
  | some v => (.head, .var v) :: placedFrom 0 t.args
  | none => placedFrom 0 t.args

/-- The names, each at its first occurrence. -/
def firstOccurrences (names : List String) : List String :=
  names.foldl (fun seen name => if seen.contains name then seen else seen ++ [name]) []

/-- The variables in the order of their positions. -/
def vars (t : Term) : List String :=
  firstOccurrences (t.positions.filterMap fun (_, a) => a.name?)

/-- The first position of a variable. -/
def positionOf? (t : Term) (name : String) : Option Position :=
  (t.positions.find? fun (_, a) => a == .var name).map Prod.fst

/-- The text of a term. -/
def text (t : Term) : String :=
  let args := t.args.map Arg.text
  match t.factVariable with
  | some v => t.relation ++ "'(" ++ ",".intercalate (v :: args) ++ ")"
  | none => t.relation ++ "(" ++ ",".intercalate args ++ ")"

end Term

/-- Premises, a conclusion, and the comment that followed them. -/
structure Rule where
  premises : List Term
  conclusion : Term
  comment : Option String
  deriving Repr, DecidableEq, Inhabited

/-- The text of a rule, without the comment. -/
def Rule.text (r : Rule) : String :=
  " & ".intercalate (r.premises.map Term.text) ++ " => " ++ r.conclusion.text

end ScoredChaining
