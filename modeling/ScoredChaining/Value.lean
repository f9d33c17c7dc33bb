import ScoredChaining.Decimal.Integer

/-!
Values: what the nodes of the graph carry. A value is a 64-bit integer, a string, or a tuple of
values; a fact is identified by the tuple of its argument values.

Integers come before strings and strings before tuples. The order is total, and no two values have
the same place in it (`Value.eq_of_compare`).
-/

namespace ScoredChaining

open Std

/-- A value of a node. -/
inductive Value where
  | int (n : Int64)
  | str (s : String)
  | tuple (items : List Value)
  deriving Repr, Inhabited

namespace Value

mutual

/-- Equality of values is decidable. -/
def decEq : (a b : Value) → Decidable (a = b)
  | .int m, .int n =>
    if h : m = n then .isTrue (by rw [h]) else .isFalse (by simpa using h)
  | .str s, .str t =>
    if h : s = t then .isTrue (by rw [h]) else .isFalse (by simpa using h)
  | .tuple items, .tuple others =>
    match decEqAll items others with
    | .isTrue h => .isTrue (by rw [h])
    | .isFalse h => .isFalse (by simpa using h)
  | .int _, .str _ | .int _, .tuple _ | .str _, .int _ | .str _, .tuple _ | .tuple _, .int _
  | .tuple _, .str _ => .isFalse (by simp)

/-- Equality of lists of values is decidable. -/
def decEqAll : (items others : List Value) → Decidable (items = others)
  | [], [] => .isTrue rfl
  | [], _ :: _ | _ :: _, [] => .isFalse (by simp)
  | a :: items, b :: others =>
    match decEq a b, decEqAll items others with
    | .isTrue h, .isTrue h' => .isTrue (by rw [h, h'])
    | .isFalse h, _ => .isFalse (by simp [h])
    | _, .isFalse h => .isFalse (by simp [h])

end

instance : DecidableEq Value := decEq

/-- The integer, if the value is one. -/
def asInt : Value → Option Int64
  | .int n => some n
  | _ => none

mutual

/-- The text of a value: integers in decimal, strings as they are, tuples in parentheses. -/
def text : Value → String
  | .int n => String.ofList (Decimal.showInt64 n)
  | .str s => s
  | .tuple items => "(" ++ joined items ++ ")"

/-- The texts of the items with commas between them. -/
def joined : List Value → String
  | [] => ""
  | [v] => v.text
  | v :: w :: rest => v.text ++ "," ++ joined (w :: rest)

end

/-- The string between the double quotes, if the text begins with one and ends with another. -/
def unquoted? : List Char → Option (List Char)
  | '"' :: rest => if rest.getLast? = some '"' then some rest.dropLast else none
  | _ => none

/-- The value that a bare token denotes. A token in double quotes is a string without them,
whatever it looks like; of the others the integers are integers and the rest are strings. -/
def ofToken (token : List Char) : Value :=
  match unquoted? token with
  | some inner => .str (String.ofList inner)
  | none =>
    match Decimal.readInt64? token with
    | some n => .int n
    | none => .str (String.ofList token)

mutual

/-- The order of values. Tuples are compared item by item, a proper initial part coming first. -/
def compare : Value → Value → Ordering
  | .int m, .int n => Ord.compare m.toInt n.toInt
  | .int _, _ => .lt
  | .str _, .int _ => .gt
  | .str s, .str t => Ord.compare s t
  | .str _, .tuple _ => .lt
  | .tuple items, .tuple others => compareAll items others
  | .tuple _, _ => .gt

/-- The lexicographic order of lists of values. -/
def compareAll : List Value → List Value → Ordering
  | [], [] => .eq
  | [], _ :: _ => .lt
  | _ :: _, [] => .gt
  | a :: items, b :: others =>
    match compare a b with
    | .eq => compareAll items others
    | decided => decided

end

mutual

theorem compare_self : (a : Value) → compare a a = .eq
  | .int _ => by rw [compare, ReflOrd.compare_self]
  | .str _ => by rw [compare, ReflOrd.compare_self]
  | .tuple items => by rw [compare, compareAll_self items]

theorem compareAll_self : (items : List Value) → compareAll items items = .eq
  | [] => by rw [compareAll]
  | a :: items => by
    rw [compareAll, compare_self a]
    exact compareAll_self items

end

mutual

theorem eq_of_compare : {a b : Value} → compare a b = .eq → a = b
  | .int _, .int _, same => by
    rw [compare] at same
    rw [Int64.toInt_inj.mp (LawfulEqOrd.eq_of_compare same)]
  | .str _, .str _, same => by
    rw [compare] at same
    rw [LawfulEqOrd.eq_of_compare same]
  | .tuple _, .tuple _, same => by
    rw [compare] at same
    rw [eq_of_compareAll same]
  | .int _, .str _, same | .int _, .tuple _, same | .str _, .int _, same | .str _, .tuple _, same
  | .tuple _, .int _, same | .tuple _, .str _, same => by simp [compare] at same

theorem eq_of_compareAll : {items others : List Value} → compareAll items others = .eq →
    items = others
  | [], [], _ => rfl
  | [], _ :: _, same | _ :: _, [], same => by simp [compareAll] at same
  | _ :: _, _ :: _, same => by
    rw [compareAll] at same
    split at same
    · rename_i first
      rw [eq_of_compare first, eq_of_compareAll same]
    · rename_i differ
      exact absurd same differ

end

mutual

theorem compare_swap : (a b : Value) → compare a b = (compare b a).swap
  | .int _, .int _ => by
    rw [compare, compare]
    exact OrientedOrd.eq_swap
  | .str _, .str _ => by
    rw [compare, compare]
    exact OrientedOrd.eq_swap
  | .tuple items, .tuple others => by
    rw [compare, compare]
    exact compareAll_swap items others
  | .int _, .str _ | .int _, .tuple _ | .str _, .int _ | .str _, .tuple _
  | .tuple _, .int _ | .tuple _, .str _ => by simp [compare]

theorem compareAll_swap : (items others : List Value) →
    compareAll items others = (compareAll others items).swap
  | [], [] | [], _ :: _ | _ :: _, [] => by simp [compareAll]
  | a :: items, b :: others => by
    rw [compareAll, compareAll, compare_swap a b, compareAll_swap items others]
    cases compare b a <;> rfl

end

mutual

theorem compare_trans : {a b c : Value} → compare a b = .lt → compare b c = .lt →
    compare a c = .lt
  | .int _, .int _, .int _, first, second => by
    rw [compare] at first second ⊢
    exact TransCmp.lt_trans first second
  | .str _, .str _, .str _, first, second => by
    rw [compare] at first second ⊢
    exact TransCmp.lt_trans first second
  | .tuple _, .tuple _, .tuple _, first, second => by
    rw [compare] at first second ⊢
    exact compareAll_trans first second
  | .int _, _, .str _, _, _ | .int _, _, .tuple _, _, _ | .str _, _, .tuple _, _, _ => by
    simp [compare]
  | .str _, .int _, _, first, _ | .tuple _, .int _, _, first, _
  | .tuple _, .str _, _, first, _ => by
    simp [compare] at first
  | _, .str _, .int _, _, second | _, .tuple _, .int _, _, second
  | _, .tuple _, .str _, _, second => by
    simp [compare] at second

theorem compareAll_trans : {xs ys zs : List Value} → compareAll xs ys = .lt →
    compareAll ys zs = .lt → compareAll xs zs = .lt
  | [], _, _ :: _, _, _ => by rw [compareAll]
  | _, [], [], _, second | _, _ :: _, [], _, second => by simp [compareAll] at second
  | _ :: _, [], _, first, _ => by simp [compareAll] at first
  | a :: _, b :: _, c :: _, first, second => by
    rw [compareAll] at first second ⊢
    -- What decides between the first two lists and between the last two decides between the outer
    -- ones, unless both are decided by what follows the first items.
    cases order : compare a b with
    | gt => simp [order] at first
    | eq =>
      rw [eq_of_compare order, compare_self] at first
      rw [eq_of_compare order]
      cases order' : compare b c with
      | gt => simp [order'] at second
      | lt => rfl
      | eq =>
        rw [order'] at second
        exact compareAll_trans first second
    | lt =>
      cases order' : compare b c with
      | gt => simp [order'] at second
      | lt => rw [compare_trans order order']
      | eq => rw [← eq_of_compare order', order]

end

-- The laws say all that is needed of the order; definitional unfolding is not to go through it.
attribute [irreducible] compare compareAll

instance : Ord Value := ⟨compare⟩

instance : OrientedOrd Value where
  eq_swap := compare_swap _ _

instance : LawfulEqOrd Value where
  eq_of_compare := eq_of_compare

instance : TransOrd Value where
  isLE_trans {a b c} first second := by
    rcases Ordering.isLE_iff_eq_lt_or_eq_eq.mp first with first | same
    · rcases Ordering.isLE_iff_eq_lt_or_eq_eq.mp second with second | same
      · exact Ordering.isLE_iff_eq_lt_or_eq_eq.mpr (.inl (compare_trans first second))
      · rwa [← eq_of_compare same]
    · rwa [eq_of_compare same]

/-- The first value is not above the second. -/
def notAbove (a b : Value) : Bool :=
  compare a b != .gt

/-- The values in order, equal ones next to each other. -/
def sorted (values : List Value) : List Value :=
  values.mergeSort notAbove

/-- The list without a value that repeats its predecessor. -/
def dropRepeats : List Value → List Value
  | a :: b :: rest => if a = b then dropRepeats (b :: rest) else a :: dropRepeats (b :: rest)
  | short => short

end Value

end ScoredChaining
