import ScoredChaining.Document.Line

/-!
Cutting a fact file into documents. A document begins where it says so and ends where the next one
begins; what comes before the first document is for all of them (`flatten_fromStarts`).

A file that names no document is one document without a name, and its declarations and schema facts
are for all.
-/

namespace ScoredChaining

/-- A document: its name, if it has one, and its lines, with the line that starts it. -/
structure Document where
  id : Option String
  lines : List FactLine
  deriving Repr, DecidableEq, Inhabited

namespace Document

/-- The name of the document that the line starts. -/
def started? : FactLine → Option String
  | .startDocument id => some id
  | _ => none

/-- The line belongs before all documents wherever it stands. -/
def isShared : FactLine → Bool
  | .declaration _ _ | .schemaFact _ _ => true
  | _ => false

/-- The lines before the first document, and the documents. -/
def fromStarts : List FactLine → List FactLine × List Document
  | [] => ([], [])
  | line :: rest =>
    let (before, documents) := fromStarts rest
    match started? line with
    | some id => ([], ⟨some id, line :: before⟩ :: documents)
    | none => (line :: before, documents)

/-- What is shared by all documents, and the documents. -/
def split (lines : List FactLine) : List FactLine × List Document :=
  if lines.any fun line => (started? line).isSome then fromStarts lines
  else
    let (shared, own) := lines.partition isShared
    (shared, if own = [] then [] else [⟨none, own⟩])

/-- No line is lost and none changes its place. -/
theorem flatten_fromStarts (ls : List FactLine) :
    (fromStarts ls).1 ++ (fromStarts ls).2.flatMap Document.lines = ls := by
  induction ls with
  | nil => rfl
  | cons line rest ih =>
    simp only [fromStarts]
    split <;> simp [ih]

end Document

end ScoredChaining
