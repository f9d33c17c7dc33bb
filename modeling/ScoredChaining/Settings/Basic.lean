import ScoredChaining.Agenda.Priority

/-!
The settings of a run, with their usual values.
-/

namespace ScoredChaining

/-- Whose answer commits a candidate. -/
inductive Mode where
  /-- The policies'. -/
  | decoder
  /-- The gold facts': exactly these are committed. -/
  | oracle
  deriving Repr, DecidableEq, Inhabited

/-- The name of a mode. -/
def Mode.name : Mode → String
  | .decoder => "decoder"
  | .oracle => "oracle"

/-- The mode with this name. -/
def Mode.byName? (name : String) : Option Mode :=
  [Mode.decoder, Mode.oracle].find? fun m => m.name == name

/-- The settings of a run. -/
structure Settings where
  /-- Candidates that no other policy decides about are committed above this score. -/
  threshold : Float
  /-- The score of the conclusions of rules. -/
  ruleScore : Float
  /-- The description of the priority. -/
  priority : String
  relationOrder : List String
  seed : UInt64
  /-- The number of candidates after which a run stops. -/
  maxPops : Option Nat
  /-- The descriptions of the group constraints. -/
  decisions : List String
  /-- Observed facts are committed without matching rules against them. -/
  noMatchOnLoad : Bool
  mode : Mode
  deriving Repr, BEq, Inhabited

namespace Settings

/-- What holds where nothing else was set. -/
def usual : Settings where
  threshold := 0.0
  ruleScore := 1.0
  priority := "easyfirst-linear"
  relationOrder := []
  seed := 9001
  maxPops := none
  decisions := []
  noMatchOnLoad := false
  mode := .decoder

/-- The priority that the settings describe. -/
def readPriority (s : Settings) : Except PriorityError Priority :=
  (Priority.read s.priority).map fun p =>
    { p with relationOrder := s.relationOrder, seed := s.seed }

end Settings

end ScoredChaining
