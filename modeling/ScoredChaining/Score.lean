import Std.Data.ExtTreeMap

/-!
Scores: numbers that remember how they were computed.

A score is read forwards (`value`), and a gradient is sent backwards through it (`backward`) to the
parameters that it was computed from. Several parameters may share one gradient cell. A cached
score keeps the number it was first read as (`read`).
-/

namespace ScoredChaining

open Std

/-- The gradient accumulated in each cell. A cell starts at zero. -/
structure Gradients where
  cells : ExtTreeMap String Float

namespace Gradients

/-- Every cell at zero. -/
def empty : Gradients := ⟨∅⟩

instance : Inhabited Gradients := ⟨empty⟩

/-- The gradient of a cell. -/
def get (g : Gradients) (cell : String) : Float :=
  (g.cells[cell]?).getD 0.0

/-- Adds to the gradient of a cell. -/
def add (g : Gradients) (cell : String) (d : Float) : Gradients :=
  ⟨g.cells.insert cell (g.get cell + d)⟩

end Gradients

/-- How a number was computed. -/
inductive Score where
  | constant (value : Float)
  /-- A parameter whose gradient is accumulated in `cell`. -/
  | param (value : Float) (cell : String)
  | scale (factor : Float) (inner : Score)
  | sum (terms : List Score)
  /-- The inner score, with the number that it was first read as. -/
  | cached (inner : Score) (memo : Option Float)
  deriving Repr, Inhabited

namespace Score

mutual

/-- The number. A sum starts from minus zero and adds its terms from left to right. -/
def value : Score → Float
  | .constant x => x
  | .param x _ => x
  | .scale factor inner => factor * inner.value
  | .sum terms => sumFrom (-0.0) terms
  | .cached inner memo =>
    match memo with
    | some x => x
    | none => inner.value

/-- The terms added to `acc` from left to right. -/
def sumFrom (acc : Float) : List Score → Float
  | [] => acc
  | term :: rest => sumFrom (acc + term.value) rest

end

mutual

/-- The number, and the score with what reading it has put into its caches. -/
def read : Score → Float × Score
  | .constant x => (x, .constant x)
  | .param x cell => (x, .param x cell)
  | .scale factor inner =>
    let (x, inner) := inner.read
    (factor * x, .scale factor inner)
  | .sum terms =>
    let (x, terms) := readFrom (-0.0) terms
    (x, .sum terms)
  | .cached inner memo =>
    match memo with
    | some x => (x, .cached inner (some x))
    | none =>
      let (x, inner) := inner.read
      (x, .cached inner (some x))

/-- Reads the terms from left to right and adds them to `acc`. -/
def readFrom (acc : Float) : List Score → Float × List Score
  | [] => (acc, [])
  | term :: rest =>
    let (x, term) := term.read
    let (total, rest) := readFrom (acc + x) rest
    (total, term :: rest)

end

mutual

/-- Sends the gradient `d` back to the parameters: through a factor it is multiplied, to every term
of a sum it goes unchanged. -/
def backward (d : Float) : Score → Gradients → Gradients
  | .constant _, g => g
  | .param _ cell, g => g.add cell d
  | .scale factor inner, g => inner.backward (factor * d) g
  | .sum terms, g => backwardAll d terms g
  | .cached inner _, g => inner.backward d g

/-- Sends the gradient back through each of the scores in order. -/
def backwardAll (d : Float) : List Score → Gradients → Gradients
  | [], g => g
  | term :: rest, g => backwardAll d rest (term.backward d g)

end

/-- A cache around a score. -/
def cache (s : Score) : Score :=
  .cached s none

/-- The score inside a cache. -/
def unwrap : Score → Score
  | .cached inner _ => inner
  | s => s

/-- The sum of two scores. -/
def plus (a b : Score) : Score :=
  .sum [a, b]

end Score

end ScoredChaining
