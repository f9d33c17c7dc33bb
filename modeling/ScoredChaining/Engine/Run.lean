import ScoredChaining.Engine.Commit

/-!
Running: the best candidate comes off the agenda and is decided about, until none is left.

Rules may propose without end, so a run has fuel, one unit for each candidate; running out of it is
told apart from every other end.
-/

namespace ScoredChaining

/-- What became of a candidate. -/
inductive Outcome where
  | committed
  | rejected
  /-- Accepted, but the fact had been committed while the candidate was pending. -/
  | alreadyCommitted
  deriving Repr, DecidableEq, Inhabited

/-- One candidate that came off the agenda. -/
structure Step where
  edge : EdgeId
  score : Score
  label : Label
  /-- The answer of the policies, if they had one. -/
  predicted : Option Bool
  outcome : Outcome
  deriving Inhabited

namespace Step

/-- The policies and a known label say different things. No answer counts as a refusal. -/
def isMistake (s : Step) : Bool :=
  match s.label with
  | .gold => !s.predicted.getD false
  | .notGold => s.predicted.getD false
  | .unknown => false

/-- After a mistake, sends a gradient into the score: a gold fact should have scored higher, another
one lower. The answer says whether it was sent. -/
def backward (s : Step) (g : Gradients) : Bool × Gradients :=
  if s.isMistake then
    (true, s.score.backward (if s.label = .gold then -1.0 else 1.0) g)
  else (false, g)

end Step

/-- How a run ended. -/
inductive RunEnd where
  /-- No candidates are left. -/
  | exhausted
  /-- The limit was reached with candidates left. -/
  | limited
  | failed (error : EngineError)
  | outOfFuel
  deriving DecidableEq

/-- A run: how it ended, the steps that were completed, and the engine after it. -/
structure Run (Custom : Type := Empty) [Decider Custom] where
  ending : RunEnd
  steps : List Step
  engine : Engine Custom

variable {Custom : Type} [Decider Custom]

namespace Engine

/-- The outcome of a refused candidate. -/
def reject (e : Engine Custom) (decided : Bool) : Engine Custom :=
  { e with stats := { e.stats with
      rejects := e.stats.rejects + 1
      undecided := e.stats.undecided + if decided then 0 else 1 } }

/-- Does what was decided about a fact. -/
def conclude (e : Engine Custom) (id : EdgeId) :
    Option Bool → Except EngineError Outcome × Engine Custom
  | some true =>
    match e.commit id with
    | (.error failure, e) => (.error failure, e)
    | (.ok true, e) =>
      (.ok .committed, { e with stats := { e.stats with commits := e.stats.commits + 1 } })
    | (.ok false, e) => (.ok .alreadyCommitted, e)
  | some false => (.ok .rejected, e.reject true)
  | none => (.ok .rejected, e.reject false)

/-- Decides about a candidate that has come off the agenda. The policies are asked in both modes, so
that their answer is known. -/
def consider (e : Engine Custom) (mode : Mode) (c : Candidate) :
    Except EngineError Step × Engine Custom :=
  match e.graph.edge c.edge with
  | .error failure => (.error (.store failure), e)
  | .ok edge =>
    let (x, score) := c.score.read
    let label := e.labels.label edge
    match e.decisions.decide edge x with
    | (.error failure, decisions) => (.error (.decision failure), { e with decisions })
    | (.ok predicted, decisions) =>
      let answer :=
        match mode with
        | .decoder => predicted
        | .oracle => some (label = .gold)
      match { e with decisions }.conclude c.edge answer with
      | (.error failure, e) => (.error failure, e)
      | (.ok outcome, e) => (.ok ⟨c.edge, score, label, predicted, outcome⟩, e)

/-- Takes the best candidate off the agenda and decides about it. -/
def step (e : Engine Custom) (mode : Mode) : Except EngineError Step × Engine Custom :=
  match e.agenda.pop with
  | (.error failure, agenda) => (.error (.agenda failure), { e with agenda })
  | (.ok c, agenda) =>
    { e with agenda, stats := { e.stats with pops := e.stats.pops + 1 } }.consider mode c

/-- Takes steps until no candidate is left, or `limit` of them if there is a limit. -/
def runWithin (mode : Mode) (fuel : Nat) (limit : Option Nat) (e : Engine Custom) : Run Custom :=
  if e.agenda.isEmpty then ⟨.exhausted, [], e⟩
  else if limit = some 0 then ⟨.limited, [], e⟩
  else
    match fuel with
    | 0 => ⟨.outOfFuel, [], e⟩
    | fuel + 1 =>
      match e.step mode with
      | (.error failure, e) => ⟨.failed failure, [], e⟩
      | (.ok s, e) =>
        let rest := runWithin mode fuel (limit.map (· - 1)) e
        { rest with steps := s :: rest.steps }

/-- Runs until no candidate is left or the limit of the settings is reached. -/
def run (e : Engine Custom) (mode : Mode) (fuel : Nat) : Run Custom :=
  runWithin mode fuel e.settings.maxPops e

end Engine

namespace Run

/-- What was done in a run that began with the counts `before`. -/
def stats (r : Run Custom) (before : RunStats) : RunStats :=
  { r.engine.stats.since before with hitPopLimit := r.ending = .limited }

end Run

end ScoredChaining
