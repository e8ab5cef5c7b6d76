import BitcoinSigning.Signature.Schnorr
/-!
The two kinds of signature behind one interface, for callers that only move
keys and digests around.
-/

namespace BitcoinSigning

structure SignatureScheme (Signature : Type) where
  sign : PrivateKey → Bytes32 → Except SignError Signature
  verify : Bytes → Bytes32 → Signature → Bool

namespace SignatureScheme

def ecdsa : SignatureScheme EcdsaSignature where
  sign := EcdsaSignature.sign
  verify key digest signature := signature.verifyEncoded key digest

/-- Every signature uses the same random bytes. A public key is a first
coordinate, of 32 bytes. -/
def schnorr (random : Bytes32) : SignatureScheme SchnorrSignature where
  sign key digest := SchnorrSignature.sign key digest random
  verify key digest signature :=
    match Bytes32.ofBytes? key with
    | some key => signature.verify key digest
    | none => false

end SignatureScheme

end BitcoinSigning
