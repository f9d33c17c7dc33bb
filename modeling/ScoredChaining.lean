import ScoredChaining.Files.Tree
import ScoredChaining.Json.Tagged
import ScoredChaining.Main
import ScoredChaining.Proofs.Agenda.Check
import ScoredChaining.Proofs.Factor
import ScoredChaining.Proofs.Graph.Histories
import ScoredChaining.Proofs.Pattern.Enumeration
import ScoredChaining.Proofs.Engine.Agreement
import ScoredChaining.Proofs.Engine.Soundness
import ScoredChaining.Proofs.Engine.Fixpoint
import ScoredChaining.Proofs.Engine.Rejection
import ScoredChaining.Proofs.Engine.Safety
import ScoredChaining.Proofs.Document.Independence
import ScoredChaining.Proofs.Decision.Foremost
import ScoredChaining.Proofs.Engine.Groups
import ScoredChaining.Proofs.Engine.Inline
import ScoredChaining.Proofs.Engine.Trajectory
import ScoredChaining.Proofs.Engine.BestOfGroup
import ScoredChaining.Proofs.Engine.Exclusion
import ScoredChaining.Proofs.FactBase.Histories
import ScoredChaining.Proofs.Rule.Bracketing
import ScoredChaining.Proofs.Engine.Labels
import ScoredChaining.Proofs.Agenda.Tidy
import ScoredChaining.Proofs.Factor.Rescoring
import ScoredChaining.Proofs.Decision.Members
import ScoredChaining.Proofs.Graph.Additions
import ScoredChaining.Proofs.Decimal.Integer
import ScoredChaining.Proofs.Rule.Quotes
import ScoredChaining.Proofs.Rule.Plain
import ScoredChaining.Proofs.Rule.Outline
import ScoredChaining.Proofs.Document.Quotable
import ScoredChaining.Proofs.Pattern.Registrations
import ScoredChaining.Proofs.Engine.Limits
import ScoredChaining.Proofs.Decision.Committee
import ScoredChaining.Proofs.Score
import ScoredChaining.Proofs.Engine.Evaluation
import ScoredChaining.Proofs.Engine.Bookkeeping
