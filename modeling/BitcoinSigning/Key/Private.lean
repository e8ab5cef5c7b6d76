import BitcoinSigning.Curve.Point
import BitcoinSigning.Curve.Scalar
/-!
Private keys: scalars other than zero.
-/

namespace BitcoinSigning

structure PrivateKey where
  scalar : Scalar
  nonzero : scalar.isZero = false
  deriving DecidableEq

namespace PrivateKey

def ofScalar (scalar : Scalar) : Except CurveError PrivateKey :=
  if nonzero : scalar.isZero = false then .ok ⟨scalar, nonzero⟩ else .error .invalidScalar

def ofBytes (bytes : Bytes) : Except CurveError PrivateKey :=
  match (Bytes32.ofBytes? bytes).bind Scalar.ofBytes? with
  | some scalar => ofScalar scalar
  | none => .error .invalidScalar

def toBytes (key : PrivateKey) : Bytes32 := key.scalar.toBytes

def description (_ : PrivateKey) : String := "PrivateKey(<redacted>)"

def neg (key : PrivateKey) : PrivateKey :=
  ⟨-key.scalar, by rw [Residue.isZero_neg, key.nonzero]⟩

def negIf (condition : Bool) (key : PrivateKey) : PrivateKey :=
  if condition then key.neg else key

/-- The sum modulo the group order; zero is not a key. -/
def sum (keys : List PrivateKey) : Except CurveError PrivateKey :=
  ofScalar (keys.foldl (fun total key => total + key.scalar) Residue.zero)

/-- The first block of a random source that is a key, and the blocks after it. -/
def random : List Bytes32 → Option (PrivateKey × List Bytes32)
  | [] => none
  | block :: rest =>
    match ofBytes block.bytes with
    | .ok key => some (key, rest)
    | .error _ => random rest

end PrivateKey

end BitcoinSigning
