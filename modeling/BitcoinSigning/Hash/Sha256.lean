import BitcoinSigning.Bytes
/-!
SHA-256. A message is absorbed in blocks of 64 bytes; what has not filled a
block yet is kept pending, so a message may arrive in any number of pieces.
-/

namespace BitcoinSigning.Sha256

structure State where
  a : UInt32
  b : UInt32
  c : UInt32
  d : UInt32
  e : UInt32
  f : UInt32
  g : UInt32
  h : UInt32
  deriving DecidableEq

def initial : State :=
  ⟨0x6a09e667, 0xbb67ae85, 0x3c6ef372, 0xa54ff53a, 0x510e527f, 0x9b05688c, 0x1f83d9ab, 0x5be0cd19⟩

def roundConstants : List UInt32 :=
  [0x428a2f98, 0x71374491, 0xb5c0fbcf, 0xe9b5dba5, 0x3956c25b, 0x59f111f1, 0x923f82a4, 0xab1c5ed5,
   0xd807aa98, 0x12835b01, 0x243185be, 0x550c7dc3, 0x72be5d74, 0x80deb1fe, 0x9bdc06a7, 0xc19bf174,
   0xe49b69c1, 0xefbe4786, 0x0fc19dc6, 0x240ca1cc, 0x2de92c6f, 0x4a7484aa, 0x5cb0a9dc, 0x76f988da,
   0x983e5152, 0xa831c66d, 0xb00327c8, 0xbf597fc7, 0xc6e00bf3, 0xd5a79147, 0x06ca6351, 0x14292967,
   0x27b70a85, 0x2e1b2138, 0x4d2c6dfc, 0x53380d13, 0x650a7354, 0x766a0abb, 0x81c2c92e, 0x92722c85,
   0xa2bfe8a1, 0xa81a664b, 0xc24b8b70, 0xc76c51a3, 0xd192e819, 0xd6990624, 0xf40e3585, 0x106aa070,
   0x19a4c116, 0x1e376c08, 0x2748774c, 0x34b0bcb5, 0x391c0cb3, 0x4ed8aa4a, 0x5b9cca4f, 0x682e6ff3,
   0x748f82ee, 0x78a5636f, 0x84c87814, 0x8cc70208, 0x90befffa, 0xa4506ceb, 0xbef9a3f7, 0xc67178f2]

def rotateRight (word : UInt32) (count : UInt32) : UInt32 :=
  word >>> count ||| word <<< (32 - count)

def round (s : State) (constant word : UInt32) : State :=
  let choice := (s.e &&& s.f) ^^^ (~~~s.e &&& s.g)
  let majority := (s.a &&& s.b) ^^^ (s.a &&& s.c) ^^^ (s.b &&& s.c)
  let mixE := rotateRight s.e 6 ^^^ rotateRight s.e 11 ^^^ rotateRight s.e 25
  let mixA := rotateRight s.a 2 ^^^ rotateRight s.a 13 ^^^ rotateRight s.a 22
  let t := s.h + mixE + choice + constant + word
  ⟨t + mixA + majority, s.a, s.b, s.c, s.d + t, s.e, s.f, s.g⟩

def nextWord (window : List UInt32) : UInt32 :=
  let w1 := window.getD 1 0
  let w14 := window.getD 14 0
  let mix1 := rotateRight w1 7 ^^^ rotateRight w1 18 ^^^ w1 >>> 3
  let mix14 := rotateRight w14 17 ^^^ rotateRight w14 19 ^^^ w14 >>> 10
  window.headD 0 + mix1 + window.getD 9 0 + mix14

def step (running : State × List UInt32) (constant : UInt32) : State × List UInt32 :=
  let (state, window) := running
  (round state constant (window.headD 0), window.tail ++ [nextWord window])

def compress (s : State) (block : List UInt32) : State :=
  let t := (roundConstants.foldl step (s, block)).1
  ⟨s.a + t.a, s.b + t.b, s.c + t.c, s.d + t.d, s.e + t.e, s.f + t.f, s.g + t.g, s.h + t.h⟩

def words : Bytes → List UInt32
  | a :: b :: c :: d :: rest =>
    (a.toUInt32 <<< 24 ||| b.toUInt32 <<< 16 ||| c.toUInt32 <<< 8 ||| d.toUInt32) :: words rest
  | _ => []

def absorbBlocks : Nat → State → Bytes → State
  | 0, state, _ => state
  | count + 1, state, bytes =>
    absorbBlocks count (compress state (words (bytes.take 64))) (bytes.drop 64)

/-- The end of a message of `length` bytes: a one bit, zeros up to the last eight
bytes of a block, and the length in bits. -/
def padding (length : Nat) : Bytes :=
  0x80 :: (List.replicate ((119 - length % 64) % 64) 0 ++ Bytes.bigEndian 8 (8 * length))

def State.digest (s : State) : Bytes32 where
  bytes := [s.a, s.b, s.c, s.d, s.e, s.f, s.g, s.h].flatMap fun word =>
    Bytes.bigEndian 4 word.toNat
  length_eq := by
    simp only [List.flatMap_cons, List.flatMap_nil, List.length_append, Bytes.length_bigEndian,
      List.length_nil]

/-- A message under way: the blocks absorbed so far, the bytes after them, and
the length of both together. -/
structure Hasher where
  state : State
  pending : Bytes
  length : Nat

namespace Hasher

def empty : Hasher := ⟨initial, [], 0⟩

def write (hasher : Hasher) (bytes : Bytes) : Hasher :=
  let pending := hasher.pending ++ bytes
  let blocks := pending.length / 64
  ⟨absorbBlocks blocks hasher.state pending, pending.drop (64 * blocks),
    hasher.length + bytes.length⟩

def digest (hasher : Hasher) : Bytes32 :=
  let last := hasher.pending ++ padding hasher.length
  (absorbBlocks (last.length / 64) hasher.state last).digest

end Hasher

def hash (message : Bytes) : Bytes32 :=
  (Hasher.empty.write message).digest

end BitcoinSigning.Sha256
