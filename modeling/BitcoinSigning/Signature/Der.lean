import BitcoinSigning.Signature.Ecdsa
/-!
The strict encoding of an ECDSA signature in scripts and witnesses: a compound
of two signed big-endian integers, each without needless bytes, and after it one
byte for the type of the digest that was signed.
-/

namespace BitcoinSigning

inductive DerError
  | invalidLength (length : Nat)
  | invalidHeader
  | lengthMismatch
  | invalidIntegerTag
  | invalidIntegerLength
  | negativeInteger
  | excessivePadding
  | integerTooLarge
  | sighashTypeTooLarge (sighashType : UInt32)
  deriving DecidableEq, Repr

namespace DerError

def message : DerError → String
  | invalidLength length => s!"DER signature length {length} outside 9..=73"
  | invalidHeader => "DER signature does not start with a compound header"
  | lengthMismatch => "DER length byte does not match signature size"
  | invalidIntegerTag => "expected an integer tag"
  | invalidIntegerLength => "integer has an invalid length"
  | negativeInteger => "integer is negative"
  | excessivePadding => "integer has an unnecessary leading zero"
  | integerTooLarge => "integer does not fit in 256 bits"
  | sighashTypeTooLarge sighashType =>
    "sighash type 0x" ++ String.ofList (Nat.toDigits 16 sighashType.toNat) ++
      " does not fit in one byte"

end DerError

namespace Der

def compoundTag : UInt8 := 0x30

def integerTag : UInt8 := 0x02

def isNegativeByte (byte : UInt8) : Bool := byte &&& 0x80 != 0

/-- The value of an integer without needless leading zeros, but with one where
the number would otherwise be empty or read as negative. -/
def integerBody (value : Bytes) : Bytes :=
  match value.dropWhile (· == 0) with
  | [] => [0]
  | first :: rest => if isNegativeByte first then 0 :: first :: rest else first :: rest

def encodeInteger (value : Bytes) : Except DerError Bytes :=
  if 32 < (value.dropWhile (· == 0)).length then .error .integerTooLarge
  else
    let body := integerBody value
    .ok (integerTag :: body.length.toUInt8 :: body)

def encode (signature : EcdsaSignature) (sighashType : UInt32) : Except DerError Bytes := do
  if 0xff < sighashType then throw (.sighashTypeTooLarge sighashType)
  let r ← encodeInteger signature.r.bytes
  let s ← encodeInteger signature.s.bytes
  return compoundTag :: (r.length + s.length).toUInt8 :: (r ++ s ++ [sighashType.toUInt8])

/-- An encoded signature cut into its parts, which are not examined yet. -/
structure Parts where
  rTag : UInt8
  r : Bytes
  sTag : UInt8
  s : Bytes
  sighashType : UInt8

/-- Cuts an encoding where its lengths say, which must account for every byte. -/
def split (der : Bytes) : Except DerError Parts :=
  let length := der.length
  if length < 9 ∨ 73 < length then .error (.invalidLength length)
  else if der.getD 0 0 ≠ compoundTag then .error .invalidHeader
  else if (der.getD 1 0).toNat ≠ length - 3 then .error .lengthMismatch
  else
    let rLength := (der.getD 3 0).toNat
    if length ≤ 5 + rLength then .error .invalidIntegerLength
    else
      let sLength := (der.getD (5 + rLength) 0).toNat
      if rLength + sLength + 7 ≠ length then .error .lengthMismatch
      else
        .ok ⟨der.getD 2 0, (der.drop 4).take rLength, der.getD (4 + rLength) 0,
          (der.drop (6 + rLength)).take sLength, der.getD (length - 1) 0⟩

def checkInteger (tag : UInt8) (value : Bytes) : Except DerError Unit :=
  if tag ≠ integerTag then .error .invalidIntegerTag
  else
    match value with
    | [] => .error .invalidIntegerLength
    | [first] => if isNegativeByte first then .error .negativeInteger else .ok ()
    | first :: second :: _ =>
      if isNegativeByte first then .error .negativeInteger
      else if first = 0 ∧ isNegativeByte second = false then .error .excessivePadding
      else .ok ()

def strictParts (der : Bytes) : Except DerError Parts := do
  let parts ← split der
  checkInteger parts.rTag parts.r
  checkInteger parts.sTag parts.s
  return parts

def magnitude : Bytes → Bytes
  | first :: second :: rest => if first = 0 then second :: rest else first :: second :: rest
  | value => value

def integerValue (value : Bytes) : Except DerError Bytes32 :=
  if fits : (magnitude value).length ≤ 32 then
    .ok ⟨List.replicate (32 - (magnitude value).length) 0 ++ magnitude value, by
      rw [List.length_append, List.length_replicate]
      omega⟩
  else .error .integerTooLarge

def decode (der : Bytes) : Except DerError (EcdsaSignature × UInt32) := do
  let parts ← strictParts der
  let r ← integerValue parts.r
  let s ← integerValue parts.s
  return (⟨r, s⟩, parts.sighashType.toUInt32)

/-- Whether the encoding is strict. Its integers may still be too large. -/
def isStrict (der : Bytes) : Bool := (strictParts der).isOk

end Der

end BitcoinSigning
