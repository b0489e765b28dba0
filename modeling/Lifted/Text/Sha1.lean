/-!
# SHA-1

The secure hash with a 160-bit state, over lists of bytes.

* `Sha1.pad`: the message with its closing bit, zeros and its length in bits, a whole number of
  64-byte blocks.
* `Sha1.compress`: one block absorbed into the state.
* `Sha1.hash`: the state after all blocks.
* `Sha1.word`: the first eight bytes of the hash as one little-endian word.
-/

namespace Lifted
namespace Sha1

/-- The five chaining words. -/
structure State where
  a : UInt32
  b : UInt32
  c : UInt32
  d : UInt32
  e : UInt32
  deriving DecidableEq, Repr

/-- The chaining words before the first block. -/
def initial : State := ⟨0x67452301, 0xefcdab89, 0x98badcfe, 0x10325476, 0xc3d2e1f0⟩

/-- Word-wise sum of two states. -/
def State.add (s t : State) : State := ⟨s.a + t.a, s.b + t.b, s.c + t.c, s.d + t.d, s.e + t.e⟩

/-- `x` rotated left by `n` bits, `0 < n < 32`. -/
def rotate (x n : UInt32) : UInt32 := (x <<< n) ||| (x >>> (32 - n))

/-- A bit count as eight big-endian bytes. -/
def lengthBytes (bits : Nat) : List UInt8 :=
  (List.range 8).map fun i => (bits >>> (8 * (7 - i))).toUInt8

/-- The message, one set bit, the fewest zeros that complete a block, and the length. -/
def pad (message : List UInt8) : List UInt8 :=
  message ++ 0x80 :: List.replicate ((119 - message.length % 64) % 64) 0 ++
    lengthBytes (8 * message.length)

/-- Big-endian words of a list of bytes; up to three bytes at the end are dropped. -/
def words : List UInt8 → List UInt32
  | p :: q :: r :: s :: rest =>
    ((p.toUInt32 <<< 24) ||| (q.toUInt32 <<< 16) ||| (r.toUInt32 <<< 8) ||| s.toUInt32) ::
      words rest
  | _ => []

/-- Appends the schedule word that follows the words before it. -/
def extend (schedule : Array UInt32) (i : Nat) : Array UInt32 :=
  let word (back : Nat) : UInt32 := schedule.getD (i - back) 0
  schedule.push (rotate (word 3 ^^^ word 8 ^^^ word 14 ^^^ word 16) 1)

/-- The eighty schedule words of a block of 64 bytes. -/
def schedule (block : List UInt8) : List UInt32 :=
  ((List.range' 16 64).foldl extend (words block).toArray).toList

/-- The bit function and the constant of round `i`. -/
def mix (i : Nat) (b c d : UInt32) : UInt32 × UInt32 :=
  if i < 20 then ((b &&& c) ||| (~~~b &&& d), 0x5a827999)
  else if i < 40 then (b ^^^ c ^^^ d, 0x6ed9eba1)
  else if i < 60 then ((b &&& c) ||| (b &&& d) ||| (c &&& d), 0x8f1bbcdc)
  else (b ^^^ c ^^^ d, 0xca62c1d6)

/-- Round `i` with its schedule word. -/
def round (s : State) (word : UInt32 × Nat) : State :=
  let (bits, constant) := mix word.2 s.b s.c s.d
  ⟨rotate s.a 5 + bits + s.e + constant + word.1, s.a, rotate s.b 30, s.c, s.d⟩

/-- Absorbs one block of 64 bytes. -/
def compress (s : State) (block : List UInt8) : State :=
  s.add ((schedule block).zipIdx.foldl round s)

/-- Absorbs the whole blocks of `bytes` in order. -/
def absorb (s : State) (bytes : List UInt8) : State :=
  if _ : bytes.length < 64 then s else absorb (compress s (bytes.take 64)) (bytes.drop 64)
termination_by bytes.length
decreasing_by simp only [List.length_drop]; omega

/-- The chaining words after the whole message. -/
def hash (message : List UInt8) : State := absorb initial (pad message)

/-- `x` with its four bytes in the opposite order. -/
def swapBytes (x : UInt32) : UInt32 :=
  let second : UInt32 := 0xff00
  (x <<< 24) ||| ((x &&& second) <<< 8) ||| ((x >>> 8) &&& second) ||| (x >>> 24)

/-- The first eight bytes of the hash, the first byte least significant. -/
def word (message : List UInt8) : UInt64 :=
  let s := hash message
  (swapBytes s.a).toUInt64 ||| ((swapBytes s.b).toUInt64 <<< 32)

end Sha1
end Lifted
