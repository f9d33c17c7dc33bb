import ScoredChaining.Diagnostic

/-!
The schema: node types and relations.

A node type names a domain of values. A relation is a named predicate over node types; its facts
have a witness node of a type of their own. Both are numbered in the order of their declaration,
and nothing is ever removed, so a number keeps its meaning (`relation?_declare`).
-/

namespace ScoredChaining

/-- The number of a node type. The index has no bound; an index that is kept in 32 bits is the same
one as long as there are no more than 2 ^ 32 types. -/
structure TypeId where
  index : Nat
  deriving Repr, DecidableEq, Ord, Inhabited

/-- The number of a relation. The index has no bound; an index that is kept in 32 bits is the same one
as long as there are no more than 2 ^ 32 relations. -/
structure RelationId where
  index : Nat
  deriving Repr, DecidableEq, Inhabited

/-- The text of a node type's number. -/
def TypeId.text (t : TypeId) : String :=
  "nt:" ++ toString t.index

/-- The text of a relation's number. -/
def RelationId.text (r : RelationId) : String :=
  "rel:" ++ toString r.index

namespace RelationId

instance : Ord RelationId :=
  ⟨compareOn RelationId.index⟩

instance : Std.TransOrd RelationId :=
  inferInstanceAs (Std.TransCmp (compareOn RelationId.index))

theorem compare_eq_iff {q r : RelationId} : compare q r = .eq ↔ q = r := by
  obtain ⟨i⟩ := q
  obtain ⟨j⟩ := r
  have unfolded : compare (RelationId.mk i) (RelationId.mk j) = compare i j := rfl
  simp [unfolded]

instance : Std.LawfulEqOrd RelationId where
  eq_of_compare := compare_eq_iff.mp

end RelationId

/-- The place of a node in a fact: the witness of the fact itself, or an argument. -/
inductive Position where
  | head
  | tail (index : Nat)
  deriving Repr, DecidableEq, Ord, Inhabited

/-- The text of a position. -/
def Position.text : Position → String
  | .head => "HEAD"
  | .tail i => toString i

/-- A relation: its name, the types of its arguments and the type of its witnesses. -/
structure Relation where
  name : String
  argTypes : List TypeId
  witnessType : TypeId
  deriving Repr, DecidableEq, Inhabited

namespace Relation

/-- The number of arguments. -/
def arity (r : Relation) : Nat :=
  r.argTypes.length

/-- The type of the node at a position, if there is such a position. -/
def typeAt? (r : Relation) : Position → Option TypeId
  | .head => some r.witnessType
  | .tail i => r.argTypes[i]?

end Relation

/-- Failures of declarations and look-ups by name. -/
inductive SchemaError where
  | duplicateRelation (name : String)
  | unknownRelation (name : String)
  deriving Repr, DecidableEq

/-- The wording of a schema failure. -/
def SchemaError.diagnostic : SchemaError → Diagnostic
  | .duplicateRelation name =>
    .of "schema" "duplicate_relation"
      ("relation \"" ++ name ++ "\" is already defined with a different signature")
      ("A relation name may only be declared once. Re-declaring it with the same argument types is " ++
        "allowed and returns the existing relation.")
  | .unknownRelation name =>
    .of "schema" "unknown_relation" ("unknown relation \"" ++ name ++ "\"")
      ("Declare the relation first, e.g. with a `def " ++ name ++ " <type> ...` line.")

instance : Explained SchemaError := ⟨SchemaError.diagnostic⟩

/-- The declared node types, by name, and the declared relations, each in order of declaration. -/
structure Schema where
  types : List String
  relations : List Relation
  deriving Repr, DecidableEq

namespace Schema

/-- No types and no relations. -/
def empty : Schema := ⟨[], []⟩

instance : Inhabited Schema := ⟨empty⟩

/-- What the name of a witness type begins with. -/
def witnessMark : String := "witness-"

/-- The type with this name, if it was declared. -/
def type? (s : Schema) (name : String) : Option TypeId :=
  (s.types.findIdx? (· == name)).map TypeId.mk

/-- The name of a type. -/
def typeName (s : Schema) (t : TypeId) : String :=
  (s.types[t.index]?).getD "?"

/-- The type with this name, declared if it is new. -/
def internType (s : Schema) (name : String) : TypeId × Schema :=
  match s.type? name with
  | some t => (t, s)
  | none => (⟨s.types.length⟩, { s with types := s.types ++ [name] })

/-- The types with these names, declared in order if they are new. -/
def internTypes (s : Schema) : List String → List TypeId × Schema
  | [] => ([], s)
  | name :: rest =>
    let (t, s) := s.internType name
    let (ts, s) := s.internTypes rest
    (t :: ts, s)

/-- The relation with this number. -/
def relation? (s : Schema) (r : RelationId) : Option Relation :=
  s.relations[r.index]?

/-- The number of the relation with this name. -/
def find? (s : Schema) (name : String) : Option RelationId :=
  (s.relations.findIdx? (·.name == name)).map RelationId.mk

/-- The number of the relation with this name, which must have been declared. -/
def require (s : Schema) (name : String) : Except SchemaError RelationId :=
  match s.find? name with
  | some r => .ok r
  | none => .error (.unknownRelation name)

/-- The name of a relation. -/
def relationName (s : Schema) (r : RelationId) : String :=
  match s.relation? r with
  | some relation => relation.name
  | none => r.text

/-- Declares a relation over types that exist. A name can be declared again with the same argument
types only, and keeps its number. -/
def declare (s : Schema) (name : String) (argTypes : List TypeId) :
    Except SchemaError RelationId × Schema :=
  match s.find? name with
  | some r =>
    if (s.relation? r).map Relation.argTypes = some argTypes then (.ok r, s)
    else (.error (.duplicateRelation name), s)
  | none =>
    let (witnessType, s) := s.internType (witnessMark ++ name)
    (.ok ⟨s.relations.length⟩,
      { s with relations := s.relations ++ [⟨name, argTypes, witnessType⟩] })

/-- Declares a relation over named types. Types that are new stay declared even if the relation is
refused. -/
def declareByNames (s : Schema) (name : String) (typeNames : List String) :
    Except SchemaError RelationId × Schema :=
  let (argTypes, s) := s.internTypes typeNames
  s.declare name argTypes

theorem internType_relations (s : Schema) (name : String) :
    (s.internType name).2.relations = s.relations := by
  unfold internType
  split <;> rfl

/-- A declared relation keeps its number. -/
theorem relation?_declare {s : Schema} {r : RelationId} {relation : Relation}
    (h : s.relation? r = some relation) (name : String) (argTypes : List TypeId) :
    (s.declare name argTypes).2.relation? r = some relation := by
  unfold declare
  split
  · split <;> exact h
  · have bound : r.index < s.relations.length := (List.getElem?_eq_some_iff.mp h).1
    simp only [relation?, internType_relations]
    rw [List.getElem?_append_left bound]
    exact h

end Schema

end ScoredChaining
