/-!
SipHash with one compression round and three finalisation rounds, under the zero key: a 64-bit
hash of a sequence of bytes.
-/

namespace ScoredChaining.Draw

/-- Rotation to the left. -/
def rotateLeft64 (x : UInt64) (n : UInt64) : UInt64 :=
  (x <<< n) ||| (x >>> (64 - n))

/-- The four words of the hash state. -/
structure HashState where
  v0 : UInt64
  v1 : UInt64
  v2 : UInt64
  v3 : UInt64

namespace HashState

/-- The state before the first byte. -/
def initial : HashState :=
  ⟨0x736f6d6570736575, 0x646f72616e646f6d, 0x6c7967656e657261, 0x7465646279746573⟩

/-- One round of mixing. -/
def round (s : HashState) : HashState :=
  let v0 := s.v0 + s.v1
  let v2 := s.v2 + s.v3
  let v1 := rotateLeft64 s.v1 13 ^^^ v0
  let v3 := rotateLeft64 s.v3 16 ^^^ v2
  let v0 := rotateLeft64 v0 32
  let v2 := v2 + v1
  let v0 := v0 + v3
  let v1 := rotateLeft64 v1 17 ^^^ v2
  let v3 := rotateLeft64 v3 21 ^^^ v0
  let v2 := rotateLeft64 v2 32
  ⟨v0, v1, v2, v3⟩

/-- Takes in one word. -/
def absorb (s : HashState) (word : UInt64) : HashState :=
  let s := { s with v3 := s.v3 ^^^ word }.round
  { s with v0 := s.v0 ^^^ word }

/-- The hash of what was taken in. -/
def finish (s : HashState) : UInt64 :=
  let s := { s with v2 := s.v2 ^^^ 0xff }.round.round.round
  s.v0 ^^^ s.v1 ^^^ s.v2 ^^^ s.v3

end HashState

/-- The number whose bytes are given, the lowest one first. -/
def littleEndian (bytes : List UInt8) : UInt64 :=
  bytes.foldr (fun b acc => (acc <<< 8) ||| b.toUInt64) 0

/-- Takes in the bytes in words of eight. The last word holds the remaining bytes and, on top, the
length of the whole sequence. -/
def absorbAll (length : Nat) (s : HashState) : List UInt8 → HashState
  | b0 :: b1 :: b2 :: b3 :: b4 :: b5 :: b6 :: b7 :: rest =>
    absorbAll length (s.absorb (littleEndian [b0, b1, b2, b3, b4, b5, b6, b7])) rest
  | short => s.absorb (littleEndian short ||| ((UInt64.ofNat length &&& 0xff) <<< 56))

/-- The hash of a sequence of bytes. -/
def hashBytes (bytes : List UInt8) : UInt64 :=
  (absorbAll bytes.length .initial bytes).finish

/-- The lowest `count` bytes of a number, the lowest one first. -/
def bytesOf : (count : Nat) → (n : Nat) → List UInt8
  | 0, _ => []
  | count + 1, n => UInt8.ofNat n :: bytesOf count (n / 256)

end ScoredChaining.Draw
