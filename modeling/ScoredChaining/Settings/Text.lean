import ScoredChaining.Settings.Basic
import ScoredChaining.Toml.Reader
import ScoredChaining.Toml.Writer

/-!
Settings as a TOML document. What a document does not mention has its usual value, and what it
mentions besides is ignored.
-/

namespace ScoredChaining.Settings

/-! ### Reading -/

/-- A floating-point number, which may be written as an integer. -/
def asFloat? : Toml → Option Float
  | .float x => some x
  | .int n => some n.toFloat
  | _ => none

/-- A number that is not negative. -/
def asNat? : Toml → Option Nat
  | .int n => if 0 ≤ n.toInt then some n.toInt.toNat else none
  | _ => none

/-- A string. -/
def asString? : Toml → Option String
  | .str s => some s
  | _ => none

/-- An array of strings. -/
def asStrings? : Toml → Option (List String)
  | .array items => items.mapM asString?
  | _ => none

/-- A Boolean. -/
def asBool? : Toml → Option Bool
  | .bool b => some b
  | _ => none

/-- There is nothing in the array or table. -/
def isVoid : Toml → Bool
  | .array [] => true
  | .table _ [] => true
  | _ => false

/-- The mode by its name, which may be the only key of a table with nothing under it. -/
def asMode? : Toml → Option Mode
  | .str name => Mode.byName? name
  | .table _ [(name, content)] => if isVoid content then Mode.byName? name else none
  | _ => none

/-- The value of a key, or the usual one. -/
def member {α : Type} (members : Toml.Members) (key : String) (read : Toml → Option α)
    (usual : α) : Option α :=
  match members.lookup key with
  | none => some usual
  | some item => read item

/-- The settings in the table of a document. -/
def ofMembers? (m : Toml.Members) : Option Settings := do
  return {
    threshold := ← member m "default_threshold" asFloat? usual.threshold
    ruleScore := ← member m "default_rule_score" asFloat? usual.ruleScore
    priority := ← member m "priority" asString? usual.priority
    relationOrder := ← member m "relation_order" asStrings? usual.relationOrder
    seed := ← member m "random_seed" (fun item => (asNat? item).map UInt64.ofNat) usual.seed
    maxPops := ← member m "max_pops" (fun item => (asNat? item).map some) usual.maxPops
    decisions := ← member m "decisions" asStrings? usual.decisions
    noMatchOnLoad := ← member m "no_match_on_load" asBool? usual.noMatchOnLoad
    mode := ← member m "mode" asMode? usual.mode }

/-- The settings in a document. -/
def ofText? (text : String) : Option Settings :=
  (Toml.read? text).bind ofMembers?

/-! ### Writing -/

/-- A line with a key and its value. -/
def row (key value : String) : String :=
  key ++ " = " ++ value ++ "\n"

/-- The document with all settings, unless a number is too large for it. -/
def text? (s : Settings) : Option String := do
  let seed ← Toml.renderNat? s.seed.toNat
  let maxPops ←
    match s.maxPops with
    | none => some ""
    | some n => (Toml.renderNat? n).map (row "max_pops")
  return row "default_threshold" (Toml.renderFloat s.threshold) ++
    row "default_rule_score" (Toml.renderFloat s.ruleScore) ++
    row "priority" (Toml.renderString s.priority) ++
    row "relation_order" (Toml.renderStrings s.relationOrder) ++
    row "random_seed" seed ++ maxPops ++
    row "decisions" (Toml.renderStrings s.decisions) ++
    row "no_match_on_load" (Toml.renderBool s.noMatchOnLoad) ++
    row "mode" (Toml.renderString s.mode.name)

end ScoredChaining.Settings
