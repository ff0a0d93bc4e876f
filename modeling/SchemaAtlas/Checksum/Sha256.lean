/-!
# SHA-256

The message is padded to whole blocks of 64 octets and every block is mixed into a state of
eight words, in 64 rounds over a schedule that extends the sixteen words of the block.
-/

namespace SchemaAtlas.Sha256

/-- The first 32 bits of the fractional parts of the cube roots of the first 64 primes. -/
def roundConstants : List UInt32 :=
  [ 0x428a2f98, 0x71374491, 0xb5c0fbcf, 0xe9b5dba5, 0x3956c25b, 0x59f111f1, 0x923f82a4, 0xab1c5ed5,
    0xd807aa98, 0x12835b01, 0x243185be, 0x550c7dc3, 0x72be5d74, 0x80deb1fe, 0x9bdc06a7, 0xc19bf174,
    0xe49b69c1, 0xefbe4786, 0x0fc19dc6, 0x240ca1cc, 0x2de92c6f, 0x4a7484aa, 0x5cb0a9dc, 0x76f988da,
    0x983e5152, 0xa831c66d, 0xb00327c8, 0xbf597fc7, 0xc6e00bf3, 0xd5a79147, 0x06ca6351, 0x14292967,
    0x27b70a85, 0x2e1b2138, 0x4d2c6dfc, 0x53380d13, 0x650a7354, 0x766a0abb, 0x81c2c92e, 0x92722c85,
    0xa2bfe8a1, 0xa81a664b, 0xc24b8b70, 0xc76c51a3, 0xd192e819, 0xd6990624, 0xf40e3585, 0x106aa070,
    0x19a4c116, 0x1e376c08, 0x2748774c, 0x34b0bcb5, 0x391c0cb3, 0x4ed8aa4a, 0x5b9cca4f, 0x682e6ff3,
    0x748f82ee, 0x78a5636f, 0x84c87814, 0x8cc70208, 0x90befffa, 0xa4506ceb, 0xbef9a3f7, 0xc67178f2 ]

structure State where
  a : UInt32
  b : UInt32
  c : UInt32
  d : UInt32
  e : UInt32
  f : UInt32
  g : UInt32
  h : UInt32
  deriving DecidableEq, Repr

/-- The first 32 bits of the fractional parts of the square roots of the first 8 primes. -/
def State.initial : State :=
  ⟨0x6a09e667, 0xbb67ae85, 0x3c6ef372, 0xa54ff53a, 0x510e527f, 0x9b05688c, 0x1f83d9ab, 0x5be0cd19⟩

def rotateRight (x : UInt32) (n : UInt32) : UInt32 := (x >>> n) ||| (x <<< (32 - n))

/-- One round, with its constant and its word of the schedule. -/
def State.round (s : State) (constant word : UInt32) : State :=
  let mixE := rotateRight s.e 6 ^^^ rotateRight s.e 11 ^^^ rotateRight s.e 25
  let choice := (s.e &&& s.f) ^^^ (~~~s.e &&& s.g)
  let t := s.h + mixE + choice + constant + word
  let mixA := rotateRight s.a 2 ^^^ rotateRight s.a 13 ^^^ rotateRight s.a 22
  let majority := (s.a &&& s.b) ^^^ (s.a &&& s.c) ^^^ (s.b &&& s.c)
  ⟨t + mixA + majority, s.a, s.b, s.c, s.d + t, s.e, s.f, s.g⟩

def State.add (s t : State) : State :=
  ⟨s.a + t.a, s.b + t.b, s.c + t.c, s.d + t.d, s.e + t.e, s.f + t.f, s.g + t.g, s.h + t.h⟩

def State.words (s : State) : List UInt32 := [s.a, s.b, s.c, s.d, s.e, s.f, s.g, s.h]

/-- Words of four octets, the first one the most significant. -/
def wordsOf : List UInt8 → List UInt32
  | a :: b :: c :: d :: rest =>
    ((a.toUInt32 <<< 24) ||| (b.toUInt32 <<< 16) ||| (c.toUInt32 <<< 8) ||| d.toUInt32) ::
      wordsOf rest
  | _ => []

/-- The word after those of a schedule. -/
def nextWord (schedule : Array UInt32) : UInt32 :=
  let back (n : Nat) : UInt32 := schedule[schedule.size - n]?.getD 0
  let x := back 15
  let y := back 2
  back 16 + (rotateRight x 7 ^^^ rotateRight x 18 ^^^ (x >>> 3)) + back 7 +
    (rotateRight y 17 ^^^ rotateRight y 19 ^^^ (y >>> 10))

def extend (schedule : Array UInt32) : Nat → Array UInt32
  | 0 => schedule
  | n + 1 => extend (schedule.push (nextWord schedule)) n

/-- Mixes one block into a state. -/
def State.absorb (s : State) (block : List UInt8) : State :=
  let schedule := (extend (wordsOf block).toArray 48).toList
  s.add ((roundConstants.zip schedule).foldl (fun s (constant, word) => s.round constant word) s)

def absorbBlocks (s : State) (octets : List UInt8) : Nat → State
  | 0 => s
  | n + 1 => absorbBlocks (s.absorb (octets.take 64)) (octets.drop 64) n

/-- The octets of a number of 64 bits, the most significant first. -/
def octetsOf64 (n : Nat) : List UInt8 :=
  [56, 48, 40, 32, 24, 16, 8, 0].map fun shift => (n >>> shift).toUInt8

/-- The message with a one bit, zeros and its length in bits behind it. -/
def pad (message : List UInt8) : List UInt8 :=
  let zeros := (119 - message.length % 64) % 64
  message ++ 0x80 :: List.replicate zeros 0 ++ octetsOf64 (8 * message.length)

def digest (message : List UInt8) : List UInt32 :=
  let padded := pad message
  (absorbBlocks .initial padded (padded.length / 64)).words

theorem length_pad (message : List UInt8) : (pad message).length % 64 = 0 := by
  simp only [pad, octetsOf64, List.length_append, List.length_cons, List.length_replicate,
    List.length_map, List.length_nil]
  omega

theorem length_digest (message : List UInt8) : (digest message).length = 8 := rfl

/-- Eight digits in lower-case hexadecimal. -/
def wordText (word : UInt32) : List Char :=
  [28, 24, 20, 16, 12, 8, 4, 0].map fun shift => Nat.digitChar ((word.toNat >>> shift) % 16)

/-- The digest in lower-case hexadecimal. -/
def hexDigest (message : List UInt8) : String :=
  String.ofList ((digest message).flatMap wordText)

end SchemaAtlas.Sha256
