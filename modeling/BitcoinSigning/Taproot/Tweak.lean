import BitcoinSigning.Hash.Digest
import BitcoinSigning.Key.Public
/-!
Keys that commit to a tree of scripts: a key is moved by a multiple of the
generator that depends on the key and on the commitment, and the private key is
moved along.
-/

namespace BitcoinSigning

inductive TaprootError
  | invalidTweak
  | zeroTweakedKey
  | curve (error : CurveError)
  deriving DecidableEq, Repr

def TaprootError.message : TaprootError → String
  | invalidTweak => "taproot tweak is not a valid scalar"
  | zeroTweakedKey => "tweaked private key is zero"
  | curve error => error.message

namespace Taproot

/-- The multiple by which a key is moved. The commitment is the digest of a tree,
or empty for a key without one. -/
def tweak (key : Bytes32) (commitment : Bytes) : Except TaprootError Scalar :=
  match Scalar.ofBytesNonzero? (HashTag.taprootTweak.hash (key.bytes ++ commitment)) with
  | some scalar => .ok scalar
  | none => .error .invalidTweak

def tweakPublic (key : Bytes32) (commitment : Bytes) : Except TaprootError (Bytes32 × Bool) := do
  let internal ← (Point.liftX key).mapError .curve
  let scalar ← tweak key commitment
  let tweaked ← (PublicKey.ofPoint (internal.mulAddGenerator scalar Residue.one)).mapError .curve
  return (tweaked.xBytes, !tweaked.hasEvenY)

/-- The private key of the tweaked public key. It starts from the opposite key
if that is the one whose point has an even second coordinate. -/
def tweakPrivate (key : PrivateKey) (commitment : Bytes) : Except TaprootError PrivateKey := do
  let publicKey ← key.publicKey.mapError .curve
  let internal := key.negIf !publicKey.hasEvenY
  let scalar ← tweak publicKey.xBytes commitment
  (PrivateKey.ofScalar (internal.scalar + scalar)).mapError fun _ => .zeroTweakedKey

/-- A first coordinate that is a digest of the generator, so that nobody knows
its private key. A key tweaked from it is spent through a script alone. -/
def unspendableKey : Except CurveError Bytes32 := do
  let digest := Sha256.hash (← Point.generator.encode .uncompressed)
  let _ ← Point.liftX digest
  return digest

end Taproot

end BitcoinSigning
