import BitcoinSigning.Authorization.Error
import BitcoinSigning.Signature.Schnorr
import BitcoinSigning.Transaction.Decode
/-!
Authorizing a spend in one go, from the bytes of a transaction and of a key.
-/

namespace BitcoinSigning

def signSighash (digest : Bytes32) (key : PrivateKey) (kind : SighashKind) :
    Except SigningError Bytes := do
  let signature ← (EcdsaSignature.sign key digest).mapError .sign
  (Der.encode signature kind.bits).mapError .der

/-- A spend to authorize. With a commitment, the key is tweaked by it first, and
so is the internal key, if there is one, only to see that it can be. -/
structure SpendRequest where
  transaction : Bytes
  key : Bytes
  script : Bytes
  index : Nat
  value : UInt64
  kind : SighashKind
  internalKey : Option Bytes32
  commitment : Option Bytes

structure Authorization where
  encoded : Bytes
  schnorr : SchnorrSignature
  deriving DecidableEq

def Authorization.toBytes (authorization : Authorization) : Bytes :=
  authorization.encoded ++ authorization.schnorr.toBytes

namespace SpendRequest

def signingKey (request : SpendRequest) (key : PrivateKey) : Except SigningError PrivateKey :=
  match request.commitment with
  | none => .ok key
  | some commitment => do
    if let some internal := request.internalKey then
      let _ ← (Taproot.tweakPublic internal commitment).mapError .taproot
    (Taproot.tweakPrivate key commitment).mapError .taproot

def authorize (request : SpendRequest) : Except SigningError Authorization := do
  let transaction ← (Transaction.ofBytes request.transaction).mapError .decode
  let key ← (PrivateKey.ofBytes request.key).mapError .curve
  let key ← request.signingKey key
  let digest ← (transaction.witnessSighash request.index request.script request.kind
    request.value).mapError .sighash
  let encoded ← signSighash digest key request.kind
  let _ ← (Der.decode encoded).mapError .der
  let schnorr ← (SchnorrSignature.sign key digest Bytes32.zero).mapError .sign
  return ⟨encoded, schnorr⟩

end SpendRequest

end BitcoinSigning
