import BitcoinSigning.Key.Public
import BitcoinSigning.Signature.Nonce
/-!
ECDSA with nonces that are determined by the key and the digest.
-/

namespace BitcoinSigning

/-- Why no signature was made. The last reason stands for a search for a nonce
that would go on for ever. -/
inductive SignError
  | zeroNonce
  | degenerateSignature
  | noNonce
  deriving DecidableEq, Repr

namespace SignError

def message : SignError → String
  | zeroNonce => "derived nonce is zero"
  | degenerateSignature => "produced signature failed verification"
  | noNonce => "no derived nonce gives a signature"

end SignError

/-- Two numbers as they were written. Whether they are in range is a question
for verification. -/
structure EcdsaSignature where
  r : Bytes32
  s : Bytes32
  deriving DecidableEq

namespace EcdsaSignature

def toBytes (signature : EcdsaSignature) : Bytes :=
  signature.r.bytes ++ signature.s.bytes

def ofBytes? (bytes : Bytes) : Option EcdsaSignature :=
  (Bytes32.halves? bytes).map fun (r, s) => ⟨r, s⟩

def toText (signature : EcdsaSignature) : String := signature.toBytes.toHex

def description (signature : EcdsaSignature) : String :=
  "EcdsaSignature \x7b r: \"" ++ signature.r.toHex ++ "\", s: \"" ++ signature.s.toHex ++ "\" \x7d"

def isLowS (signature : EcdsaSignature) : Bool :=
  match Scalar.ofBytes? signature.s with
  | some s => !s.isHigh
  | none => false

/-- The signature whose second number is the opposite one, if it was a scalar in
the upper half. -/
def normalizeS (signature : EcdsaSignature) : EcdsaSignature :=
  match Scalar.ofBytes? signature.s with
  | some s => if s.isHigh then ⟨signature.r, (-s).toBytes⟩ else signature
  | none => signature

/-- The signature of a digest, taken as a scalar, with a given nonce. The few
nonces for which one of its numbers is zero give none. -/
def signWith (key : PrivateKey) (digest nonce : Scalar) :
    Except SignError (Option EcdsaSignature) :=
  if nonce.isZero then .error .zeroNonce
  else
    match (Point.mulGenerator nonce).x? with
    | none => .ok none
    | some x =>
      let r := Scalar.ofBytesReduced x.toBytes
      if r.isZero then .ok none
      else
        match nonce.invert with
        | none => .error .zeroNonce
        | some inverse =>
          let s := inverse * (digest + r * key.scalar)
          if s.isZero then .ok none else .ok (some ⟨r.toBytes, s.toBytes⟩)

def attempt (key : PrivateKey) (digest nonce : Scalar) :
    Option (Except SignError EcdsaSignature) :=
  match signWith key digest nonce with
  | .ok none => none
  | .ok (some signature) => some (.ok signature)
  | .error e => some (.error e)

def sign (key : PrivateKey) (digest : Bytes32) : Except SignError EcdsaSignature :=
  let accept candidate :=
    (Scalar.ofBytesNonzero? candidate).bind (attempt key (Scalar.ofBytesReduced digest))
  ((NonceGenerator.seed key.scalar digest).searchAll accept).elim (.error .noNonce) Prod.fst

def verifyScalars (key : PublicKey) (digest r s : Scalar) : Bool :=
  match s.invert with
  | none => false
  | some inverse =>
    match (key.toPoint.mulAddGenerator (digest * inverse) (r * inverse)).x? with
    | none => false
    | some x => Scalar.ofBytesReduced x.toBytes == r

def verify (signature : EcdsaSignature) (key : PublicKey) (digest : Bytes32) : Bool :=
  match Scalar.ofBytesNonzero? signature.r, Scalar.ofBytesNonzero? signature.s with
  | some r, some s => verifyScalars key (Scalar.ofBytesReduced digest) r s
  | _, _ => false

def verifyEncoded (signature : EcdsaSignature) (key : Bytes) (digest : Bytes32) : Bool :=
  match PublicKey.decode key with
  | .ok key => signature.verify key digest
  | .error _ => false

end EcdsaSignature

end BitcoinSigning
