import ScoredChaining.Score

/-!
Reading scores and sending gradients back through them, in any order.

* `Score.bare`: the score without its caches. `Score.leaves`: its parameters from left to right,
  each with the factors on the way to it.
* `Score.Built`: the scores that are put together from constants and parameters, which may be read
  at any time. Their caches hold what they cache (`Score.Built.faithful`).
* `Score.backward_eq`: a gradient reaches each parameter once, in order, multiplied by its factors.
* `Score.Built.performAll_eq`: whatever is read and sent back before, a score reads as its bare
  score, and the cells receive what was sent to the parameters and nothing else.
-/

namespace ScoredChaining

open Std

/-! ### Cells -/

namespace Gradients

variable {g : Gradients}

theorem get_add (g : Gradients) (cell other : String) (d : Float) :
    (g.add cell d).get other = if cell = other then g.get cell + d else g.get other := by
  simp only [get, add, ExtTreeMap.getElem?_insert, LawfulEqCmp.compare_eq_iff_eq]
  split <;> rfl

/-- The gradients after these amounts were added to these cells, in order. -/
def addAll (g : Gradients) (amounts : List (String × Float)) : Gradients :=
  amounts.foldl (fun g x => g.add x.1 x.2) g

theorem addAll_append (g : Gradients) (amounts others : List (String × Float)) :
    g.addAll (amounts ++ others) = (g.addAll amounts).addAll others :=
  List.foldl_append

/-- A cell receives the amounts that are added to it, in order, and nothing else. -/
theorem get_addAll (g : Gradients) (amounts : List (String × Float)) (cell : String) :
    (g.addAll amounts).get cell =
      ((amounts.filter (·.1 = cell)).map Prod.snd).foldl (· + ·) (g.get cell) := by
  induction amounts generalizing g with
  | nil => rfl
  | cons x rest ih =>
    rw [addAll, List.foldl_cons, ← addAll, ih, get_add]
    by_cases same : x.1 = cell
    · simp [same]
    · simp [same]

end Gradients

namespace Score

/-! ### The score without its caches -/

mutual

/-- The score without its caches. -/
def bare : Score → Score
  | .constant x => .constant x
  | .param x cell => .param x cell
  | .scale factor inner => .scale factor inner.bare
  | .sum terms => .sum (bareAll terms)
  | .cached inner _ => inner.bare

/-- The scores without their caches. -/
def bareAll : List Score → List Score
  | [] => []
  | term :: rest => term.bare :: bareAll rest

end

/-- A parameter in a score: its cell, and the factors on the way to it, the outermost first. -/
structure Leaf where
  factors : List Float
  cell : String

namespace Leaf

/-- The leaf of a score that is scaled. -/
def scaled (factor : Float) (l : Leaf) : Leaf :=
  { l with factors := factor :: l.factors }

/-- What reaches the leaf of a gradient: it is multiplied by one factor after the other. -/
def share (d : Float) (l : Leaf) : Float :=
  l.factors.foldl (fun d factor => factor * d) d

end Leaf

mutual

/-- The parameters from left to right. -/
def leaves : Score → List Leaf
  | .constant _ => []
  | .param _ cell => [⟨[], cell⟩]
  | .scale factor inner => inner.leaves.map (Leaf.scaled factor)
  | .sum terms => leavesAll terms
  | .cached inner _ => inner.leaves

/-- The parameters of the scores from left to right. -/
def leavesAll : List Score → List Leaf
  | [] => []
  | term :: rest => term.leaves ++ leavesAll rest

end

/-- What a gradient that is sent back adds to which cells. -/
def amounts (d : Float) (s : Score) : List (String × Float) :=
  s.leaves.map fun l => (l.cell, l.share d)

/-! ### Sending back -/

mutual

/-- A gradient reaches each parameter once, from left to right, multiplied by its factors. -/
theorem backward_eq (d : Float) (s : Score) (g : Gradients) :
    s.backward d g = g.addAll (s.amounts d) := by
  match s with
  | .constant x => rfl
  | .param x cell => rfl
  | .scale factor inner =>
    rw [backward, backward_eq (factor * d) inner g, amounts, amounts, leaves, List.map_map]
    rfl
  | .sum terms => rw [backward, backwardAll_eq d terms g, amounts, leaves]
  | .cached inner memo => rw [backward, backward_eq d inner g, amounts, amounts, leaves]

theorem backwardAll_eq (d : Float) (terms : List Score) (g : Gradients) :
    backwardAll d terms g = g.addAll ((leavesAll terms).map fun l => (l.cell, l.share d)) := by
  match terms with
  | [] => rfl
  | term :: rest =>
    rw [backwardAll, backward_eq d term g, backwardAll_eq d rest, leavesAll, List.map_append,
      Gradients.addAll_append, amounts]

end

mutual

/-- A cache hides no parameters. -/
theorem leaves_bare (s : Score) : s.bare.leaves = s.leaves := by
  match s with
  | .constant x => rfl
  | .param x cell => rfl
  | .scale factor inner => rw [bare, leaves, leaves_bare inner, leaves]
  | .sum terms => rw [bare, leaves, leavesAll_bareAll terms, leaves]
  | .cached inner memo => rw [bare, leaves_bare inner, leaves]

theorem leavesAll_bareAll (terms : List Score) : leavesAll (bareAll terms) = leavesAll terms := by
  match terms with
  | [] => rfl
  | term :: rest => rw [bareAll, leavesAll, leaves_bare term, leavesAll_bareAll rest, leavesAll]

end

/-! ### Reading -/

mutual

/-- Every cache is empty or holds the number of the bare score inside it. -/
def Faithful : Score → Prop
  | .constant _ => True
  | .param _ _ => True
  | .scale _ inner => inner.Faithful
  | .sum terms => FaithfulAll terms
  | .cached inner memo => inner.Faithful ∧ ∀ x, memo = some x → x = inner.bare.value

/-- The caches of every score are empty or hold the number of the bare score inside them. -/
def FaithfulAll : List Score → Prop
  | [] => True
  | term :: rest => term.Faithful ∧ FaithfulAll rest

end

mutual

/-- A score with faithful caches reads as its bare score, which stays the same, and the caches stay
faithful. -/
theorem Faithful.read (s : Score) (faithful : s.Faithful) :
    s.read.1 = s.bare.value ∧ s.read.2.bare = s.bare ∧ s.read.2.Faithful := by
  match s with
  | .constant x => exact ⟨rfl, rfl, trivial⟩
  | .param x cell => exact ⟨rfl, rfl, trivial⟩
  | .scale factor inner =>
    obtain ⟨number, same, kept⟩ := Faithful.read inner faithful
    simp only [Score.read, bare, value, number, same, Faithful]
    exact ⟨trivial, trivial, kept⟩
  | .sum terms =>
    obtain ⟨total, same, kept⟩ := FaithfulAll.read terms faithful (-0.0)
    simp only [Score.read, bare, value, total, same, Faithful]
    exact ⟨trivial, trivial, kept⟩
  | .cached inner (some x) =>
    exact ⟨faithful.2 x rfl, rfl, faithful⟩
  | .cached inner none =>
    obtain ⟨number, same, kept⟩ := Faithful.read inner faithful.1
    refine ⟨number, same, kept, ?_⟩
    intro x kept
    obtain rfl := Option.some.inj kept
    exact number.trans (congrArg value same.symm)

theorem FaithfulAll.read (terms : List Score) (faithful : FaithfulAll terms) (acc : Float) :
    (readFrom acc terms).1 = sumFrom acc (bareAll terms) ∧
      bareAll (readFrom acc terms).2 = bareAll terms ∧ FaithfulAll (readFrom acc terms).2 := by
  match terms with
  | [] => exact ⟨rfl, rfl, trivial⟩
  | term :: rest =>
    obtain ⟨number, same, kept⟩ := Faithful.read term faithful.1
    obtain ⟨total, sameRest, keptRest⟩ := FaithfulAll.read rest faithful.2 (acc + term.bare.value)
    simp only [readFrom, bareAll, sumFrom, number, total, same, sameRest, FaithfulAll]
    exact ⟨trivial, trivial, kept, keptRest⟩

end

/-! ### Scores that are put together and read -/

/-- The scores that are put together from constants and parameters. What a score is put together
from may have been read before, and taken out of a cache. -/
inductive Built : Score → Prop where
  | constant (x : Float) : Built (.constant x)
  | param (x : Float) (cell : String) : Built (.param x cell)
  | scale (factor : Float) {inner : Score} : Built inner → Built (.scale factor inner)
  | sum {terms : List Score} : (∀ term ∈ terms, Built term) → Built (.sum terms)
  | cache {inner : Score} : Built inner → Built inner.cache
  | read {s : Score} : Built s → Built s.read.2
  | unwrap {s : Score} : Built s → Built s.unwrap

theorem faithfulAll_of_forall {terms : List Score} (faithful : ∀ term ∈ terms, term.Faithful) :
    FaithfulAll terms := by
  induction terms with
  | nil => trivial
  | cons term rest ih =>
    obtain ⟨first, others⟩ := List.forall_mem_cons.mp faithful
    exact ⟨first, ih others⟩

theorem Built.faithful {s : Score} (built : s.Built) : s.Faithful := by
  induction built with
  | constant x => trivial
  | param x cell => trivial
  | scale factor _ ih => exact ih
  | sum _ ih => exact faithfulAll_of_forall ih
  | cache _ ih => exact ⟨ih, nofun⟩
  | read _ ih => exact (Faithful.read _ ih).2.2
  | @unwrap s _ ih =>
    cases s with
    | cached inner memo => exact ih.1
    | _ => exact ih

/-! ### Calls -/

/-- What can be done with a score. -/
inductive Call where
  | read
  | backward (d : Float)

/-- The number, if the call asks for it, and the score and the cells after it. -/
def perform (s : Score) (g : Gradients) : Call → Option Float × Score × Gradients
  | .read => (some s.read.1, s.read.2, g)
  | .backward d => (none, s, s.backward d g)

/-- Makes the calls in order. -/
def performAll (s : Score) (g : Gradients) : List Call → List (Option Float) × Score × Gradients
  | [] => ([], s, g)
  | call :: rest =>
    let (number, s, g) := s.perform g call
    let (numbers, s, g) := s.performAll g rest
    (number :: numbers, s, g)

/-- The number that a call asks for. -/
def Call.answer (s : Score) : Call → Option Float
  | .read => some s.bare.value
  | .backward _ => none

/-- What a call adds to which cells. -/
def Call.amounts (s : Score) : Call → List (String × Float)
  | .read => []
  | .backward d => s.amounts d

variable {s : Score}

theorem amounts_of_bare {t : Score} (same : t.bare = s.bare) (d : Float) :
    t.amounts d = s.amounts d := by
  rw [amounts, amounts, ← leaves_bare t, ← leaves_bare s, same]

/-- A call answers for the bare score, and adds to the cells what reaches its parameters. -/
theorem Built.perform_spec (built : s.Built) (g : Gradients) (call : Call) :
    (s.perform g call).2.1.Built ∧ (s.perform g call).2.1.bare = s.bare ∧
      (s.perform g call).1 = call.answer s ∧
      (s.perform g call).2.2 = g.addAll (call.amounts s) := by
  cases call with
  | read =>
    obtain ⟨number, same, _⟩ := Faithful.read s built.faithful
    exact ⟨built.read, same, congrArg some number, rfl⟩
  | backward d => exact ⟨built, rfl, rfl, backward_eq d s g⟩

/-- Whatever was called before, a score reads as the score without its caches, and a gradient that
is sent back is added once for each parameter, from left to right, multiplied by the factors on the
way to it. Neither changes the score in another way, and no other cell is touched. -/
theorem Built.performAll_eq (built : s.Built) (g : Gradients) (calls : List Call) :
    (s.performAll g calls).1 = calls.map (Call.answer s) ∧
      (s.performAll g calls).2.1.bare = s.bare ∧
      (s.performAll g calls).2.2 = g.addAll (calls.flatMap (Call.amounts s)) ∧
      ∀ cell, (s.performAll g calls).2.2.get cell =
        (((calls.flatMap (Call.amounts s)).filter (·.1 = cell)).map Prod.snd).foldl (· + ·)
          (g.get cell) := by
  suffices all : (s.performAll g calls).1 = calls.map (Call.answer s) ∧
      (s.performAll g calls).2.1.bare = s.bare ∧
      (s.performAll g calls).2.2 = g.addAll (calls.flatMap (Call.amounts s)) from
    ⟨all.1, all.2.1, all.2.2, fun cell => by rw [all.2.2, Gradients.get_addAll]⟩
  induction calls generalizing s g with
  | nil => exact ⟨rfl, rfl, rfl⟩
  | cons call rest ih =>
    obtain ⟨next, same, answered, added⟩ := built.perform_spec g call
    obtain ⟨answers, sameRest, addedRest⟩ := ih next (s.perform g call).2.2
    have sameAnswer : Call.answer (s.perform g call).2.1 = Call.answer s := by
      funext other
      cases other <;> simp [Call.answer, same]
    have sameAmounts : Call.amounts (s.perform g call).2.1 = Call.amounts s := by
      funext other
      cases other with
      | read => rfl
      | backward d => exact amounts_of_bare same d
    rw [sameAnswer] at answers
    rw [sameAmounts, added] at addedRest
    refine ⟨?_, sameRest.trans same, ?_⟩
    · rw [performAll, List.map_cons, ← answered, ← answers]
    · rw [performAll, List.flatMap_cons, Gradients.addAll_append, ← addedRest, ← added]

/-- Two parameters that share a cell, under caches and factors. -/
def tied : Score :=
  .sum [.scale 2.0 (cache (.sum [.param 1.5 "w", .scale (-3.0) (.param 0.5 "w")])),
    cache (.param 4.0 "b"), .constant (-1.0)]

theorem built_tied : tied.Built := by
  apply Built.sum
  rw [List.forall_mem_cons, List.forall_mem_cons, List.forall_mem_singleton]
  refine ⟨.scale _ (.cache (.sum ?_)), .cache (.param _ _), .constant _⟩
  rw [List.forall_mem_cons, List.forall_mem_singleton]
  exact ⟨.param _ _, .scale _ (.param _ _)⟩

/-- Read before and after gradients are sent back, the score stays the same, and the shared cell
receives the shares of both parameters. -/
theorem performAll_tied : tied.Built ∧
    (tied.performAll .empty [.read, .backward 0.5, .read, .backward 1.0]).1 =
      [some 3.0, none, some 3.0, none] ∧
    (tied.performAll .empty [.read, .backward 0.5, .read, .backward 1.0]).2.2.get "w" = -6.0 ∧
    (tied.performAll .empty [.read, .backward 0.5, .read, .backward 1.0]).2.2.get "b" = 1.5 := by
  obtain ⟨answers, _, _, cells⟩ :=
    built_tied.performAll_eq .empty [.read, .backward 0.5, .read, .backward 1.0]
  refine ⟨built_tied, answers.trans ?_, (cells "w").trans ?_, (cells "b").trans ?_⟩
  · decide +kernel
  · decide +kernel
  · decide +kernel

end Score

end ScoredChaining
