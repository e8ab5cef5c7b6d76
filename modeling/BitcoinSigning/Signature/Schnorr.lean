import BitcoinSigning.Signature.Ecdsa
/-!
Schnorr signatures under a key's first coordinate alone, which stands for the
point whose second coordinate is even.
-/

namespace BitcoinSigning

structure SchnorrSignature where
  r : Bytes32
  s : Bytes32
  deriving DecidableEq

namespace SchnorrSignature

def toBytes (signature : SchnorrSignature) : Bytes :=
  signature.r.bytes ++ signature.s.bytes

def ofBytes? (bytes : Bytes) : Option SchnorrSignature :=
  (Bytes32.halves? bytes).map fun (r, s) => ⟨r, s⟩

def toText (signature : SchnorrSignature) : String := signature.toBytes.toHex

def description (signature : SchnorrSignature) : String := s!"SchnorrSignature({signature.toText})"

def challenge (r publicKey message : Bytes32) : Scalar :=
  Scalar.ofBytesReduced
    (HashTag.schnorrChallenge.hash (r.bytes ++ publicKey.bytes ++ message.bytes))

def verify (signature : SchnorrSignature) (publicKey message : Bytes32) : Bool :=
  match Point.liftX publicKey, FieldElement.ofBytes? signature.r, Scalar.ofBytes? signature.s with
  | .ok key, some r, some s =>
    let nonce := key.mulAddGenerator s (-challenge signature.r publicKey message)
    nonce.hasEvenY && nonce.x? == some r
  | _, _, _ => false

/-- The private scalar whose point has an even second coordinate, and that
point's first coordinate. -/
def evenKey (key : PrivateKey) : Except CurveError (Scalar × Bytes32) := do
  let publicKey ← key.publicKey
  return ((key.negIf !publicKey.hasEvenY).scalar, publicKey.xBytes)

def nonce (secret : Scalar) (publicKey message random : Bytes32) : Scalar :=
  let masked := secret.toBytes.xor (HashTag.auxiliaryRandomness.hash random.bytes)
  Scalar.ofBytesReduced
    (HashTag.schnorrNonce.hash (masked.bytes ++ publicKey.bytes ++ message.bytes))

/-- The signature with a given nonce, or with its opposite, whichever has a point
with an even second coordinate. -/
def signWith? (secret : Scalar) (publicKey message : Bytes32) (nonce : Scalar) :
    Option SchnorrSignature := do
  let point := Point.mulGenerator nonce
  let x ← point.x?
  let even := if point.hasEvenY then nonce else -nonce
  return ⟨x.toBytes, (even + challenge x.toBytes publicKey message * secret).toBytes⟩

def sign (key : PrivateKey) (message random : Bytes32) : Except SignError SchnorrSignature :=
  match evenKey key with
  | .error _ => .error .degenerateSignature
  | .ok (secret, publicKey) =>
    let nonce := nonce secret publicKey message random
    if nonce.isZero then .error .zeroNonce
    else
      match signWith? secret publicKey message nonce with
      | none => .error .zeroNonce
      | some signature =>
        if signature.verify publicKey message then .ok signature
        else .error .degenerateSignature

end SchnorrSignature

end BitcoinSigning
