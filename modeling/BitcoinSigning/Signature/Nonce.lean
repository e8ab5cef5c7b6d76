import BitcoinSigning.Curve.Scalar
import BitcoinSigning.Hash.Digest
/-!
Nonces that are determined by the key and the message: an endless sequence of
pseudo-random candidates, of which those that are usable scalars are taken.
-/

namespace BitcoinSigning

attribute [local instance (high)] instPowNat

/-- A point of the candidate sequence: the pair of 32-byte strings from which
the next candidate is computed. -/
structure NonceGenerator where
  key : Bytes32
  value : Bytes32
  deriving DecidableEq

namespace NonceGenerator

def stir (g : NonceGenerator) (bytes : Bytes) : NonceGenerator :=
  let key := hmacSha256 g.key (g.value.bytes ++ bytes)
  ⟨key, hmacSha256 key g.value.bytes⟩

def seed (privateKey : Scalar) (digest : Bytes32) : NonceGenerator :=
  let secret := privateKey.toBytes.bytes ++ (Scalar.ofBytesReduced digest).toBytes.bytes
  let start : NonceGenerator :=
    ⟨Bytes32.zero, ⟨List.replicate 32 1, List.length_replicate⟩⟩
  (start.stir (0 :: secret)).stir (1 :: secret)

def candidate (g : NonceGenerator) : Bytes32 :=
  hmacSha256 g.key g.value.bytes

def advance (g : NonceGenerator) : NonceGenerator :=
  stir ⟨g.key, g.candidate⟩ [0]

/-- The first of the next `limit` candidates that is accepted, and the generator
past it. -/
def search {α : Type} (accept : Bytes32 → Option α) :
    Nat → NonceGenerator → Option (α × NonceGenerator)
  | 0, _ => none
  | limit + 1, g =>
    match accept g.candidate with
    | some result => some (result, g.advance)
    | none => search accept limit g.advance

/-- The number of states. A search that finds nothing in as many steps has been
in one of them twice, and so would never find anything. -/
def stateCount : Nat := 2 ^ (512 : Nat)

def searchAll {α : Type} (g : NonceGenerator) (accept : Bytes32 → Option α) :
    Option (α × NonceGenerator) :=
  search accept stateCount g

def next (g : NonceGenerator) : Option (Scalar × NonceGenerator) :=
  g.searchAll Scalar.ofBytesNonzero?

def take : Nat → NonceGenerator → Option (List Scalar)
  | 0, _ => some []
  | count + 1, g => do
    let (nonce, rest) ← g.next
    return nonce :: (← take count rest)

end NonceGenerator

end BitcoinSigning
