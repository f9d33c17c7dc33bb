import Mathlib.Data.Set.Finite.List
import ScoredChaining.Proofs.Rule.Atoms

/-!
The atoms that rules can draw from given ones are among finitely many.

* `Atom.spannedBy`: the atoms over relations, each with a number of arguments, and values. There are
  finitely many.
* `Atom.base`: the atoms over the relations and values of given atoms and of conclusions. If every
  variable of a conclusion is an argument of a premise, they are closed under the rules.
-/

namespace ScoredChaining

/-- The value, if the argument is a constant. -/
def Arg.constant? : Arg → Option Value
  | .var _ => none
  | .const c => some c

namespace Atom

/-- The atoms over these relations, with their numbers of arguments, and these values. -/
def spannedBy (shapes : List (String × Nat)) (values : List Value) : Set Atom :=
  {a | (a.relation, a.values.length) ∈ shapes ∧ ∀ v ∈ a.values, v ∈ values}

theorem finite_spannedBy (shapes : List (String × Nat)) (values : List Value) :
    (spannedBy shapes values).Finite := by
  have finite : Finite {v // v ∈ values} := values.finite_toSet
  have lists : ∀ shape ∈ {shape | shape ∈ shapes},
      ((fun l : List {v // v ∈ values} => Atom.mk shape.1 (l.map Subtype.val)) ''
        {l | l.length = shape.2}).Finite :=
    fun shape _ => (List.finite_length_eq _ shape.2).image _
  refine (shapes.finite_toSet.biUnion lists).subset ?_
  intro a isOver
  obtain ⟨shape, isValue⟩ := isOver
  refine Set.mem_biUnion shape ⟨a.values.attachWith _ isValue, ?_, ?_⟩
  · simp
  · simp

/-- The atoms over the relations and values of the given atoms and of conclusions. -/
def base (rules : List Rule) (given : List Atom) : Set Atom :=
  spannedBy
    (given.map (fun a => (a.relation, a.values.length)) ++
      rules.map fun rule => (rule.conclusion.relation, rule.conclusion.args.length))
    (given.flatMap Atom.values ++
      rules.flatMap fun rule => rule.conclusion.args.filterMap Arg.constant?)

theorem finite_base (rules : List Rule) (given : List Atom) : (base rules given).Finite :=
  finite_spannedBy _ _

theorem mem_base {rules : List Rule} {given : List Atom} {a : Atom} (mem : a ∈ given) :
    a ∈ base rules given := by
  constructor
  · exact List.mem_append_left _ (List.mem_map_of_mem mem)
  · intro v isValue
    exact List.mem_append_left _ (List.mem_flatMap_of_mem mem isValue)

/-- If every variable of a conclusion is an argument of a premise, no instance of the rules leads
out of the base. -/
theorem closed_base {admits : Rule → (String → Value) → Prop} {rules : List Rule}
    (covered : ∀ rule ∈ rules, ∀ name, .var name ∈ rule.conclusion.args →
      ∃ t ∈ rule.premises, .var name ∈ t.args) (given : List Atom) :
    Atom.Closed admits rules (base rules given) := by
  intro rule isRule ρ _ premises
  constructor
  · refine List.mem_append_right _ (List.mem_map.mpr ⟨rule, isRule, ?_⟩)
    simp [Term.atom]
  · intro v isValue
    obtain ⟨a, isArg, rfl⟩ := List.mem_map.mp isValue
    cases a with
    | var name =>
      obtain ⟨t, isPremise, placed⟩ := covered rule isRule name isArg
      exact (premises t isPremise).2 _ (List.mem_map_of_mem placed)
    | const c =>
      refine List.mem_append_right _ (List.mem_flatMap_of_mem isRule ?_)
      exact List.mem_filterMap.mpr ⟨_, isArg, rfl⟩

end Atom

/-- Without primed premises, every variable of a typed conclusion is an argument of a premise. -/
theorem CompiledRule.Typed.covered {r : CompiledRule} {s : Schema} (typed : r.Typed s)
    (unprimed : ∀ t ∈ r.rule.premises, t.factVariable = none) {name : String}
    (isArg : .var name ∈ r.rule.conclusion.args) : ∃ t ∈ r.rule.premises, .var name ∈ t.args := by
  obtain ⟨R, _, _, typedArgs⟩ := typed.conclusion
  obtain ⟨type, isType⟩ := typedArgs.lookup isArg
  obtain ⟨t, isPremise, p, placed⟩ := typed.placed name type isType
  have at_ := Term.mem_positions.mp placed
  refine ⟨t, isPremise, ?_⟩
  cases p with
  | head => simp [Term.argAt?, unprimed t isPremise] at at_
  | tail k => exact List.mem_of_getElem? at_

end ScoredChaining
