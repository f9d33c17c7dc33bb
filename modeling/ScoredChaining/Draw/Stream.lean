/-!
A pseudo-random number between zero and one from a 64-bit seed: the seed is stretched to a key, and
the number is made of the first two words of the ChaCha key stream with twelve rounds.
-/

namespace ScoredChaining.Draw

/-- Rotation to the left. -/
def rotateLeft32 (x : UInt32) (n : UInt32) : UInt32 :=
  (x <<< n) ||| (x >>> (32 - n))

/-- Rotation to the right, where a rotation by zero changes nothing. -/
def rotateRight32 (x : UInt32) (n : UInt32) : UInt32 :=
  (x >>> (n % 32)) ||| (x <<< ((32 - n) % 32))

/-- The words of a key stretched from a seed: a linear congruential generator whose states are
permuted before use. -/
def stretch : (count : Nat) → (state : UInt64) → List UInt32
  | 0, _ => []
  | count + 1, state =>
    let state := state * 6364136223846793005 + 11634580027462260723
    let mixed := (((state >>> 18) ^^^ state) >>> 27).toUInt32
    rotateRight32 mixed (state >>> 59).toUInt32 :: stretch count state

/-- The words of a block. -/
abbrev Block := Vector UInt32 16

/-- Adds, mixes and rotates four words of a block. -/
def quarterRound (b : Block) (i j k l : Fin 16) : Block :=
  let a := b[i] + b[j]
  let d := rotateLeft32 (b[l] ^^^ a) 16
  let c := b[k] + d
  let m := rotateLeft32 (b[j] ^^^ c) 12
  let a := a + m
  let d := rotateLeft32 (d ^^^ a) 8
  let c := c + d
  let m := rotateLeft32 (m ^^^ c) 7
  (((b.set i a).set j m).set k c).set l d

/-- A round over the columns and a round over the diagonals. -/
def doubleRound (b : Block) : Block :=
  let b := quarterRound b 0 4 8 12
  let b := quarterRound b 1 5 9 13
  let b := quarterRound b 2 6 10 14
  let b := quarterRound b 3 7 11 15
  let b := quarterRound b 0 5 10 15
  let b := quarterRound b 1 6 11 12
  let b := quarterRound b 2 7 8 13
  quarterRound b 3 4 9 14

/-- The first block of the key stream: constants, key, and a zero counter and nonce. -/
def startBlock (key : List UInt32) : Block :=
  let words := [0x61707865, 0x3320646e, 0x79622d32, 0x6b206574] ++ key
  Vector.ofFn fun i => words.getD i 0

/-- The first 64 bits of the key stream with twelve rounds. -/
def firstWord (key : List UInt32) : UInt64 :=
  let start := startBlock key
  let mixed := (List.range 6).foldl (fun b _ => doubleRound b) start
  let low := mixed[0] + start[0]
  let high := mixed[1] + start[1]
  (high.toUInt64 <<< 32) ||| low.toUInt64

/-- The number between zero and one that belongs to a seed. -/
def unitFloat (seed : UInt64) : Float :=
  (firstWord (stretch 8 seed) >>> 11).toFloat * Float.ofBits 0x3ca0000000000000

end ScoredChaining.Draw
