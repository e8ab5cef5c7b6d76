import BitcoinSigning.Curve.Field
/-!
Points of secp256k1, the curve `y ^ 2 = x ^ 3 + 7`, and the ways in which bytes
name one of them.
-/

namespace BitcoinSigning

inductive CurveError
  | invalidLength (length : Nat)
  | invalidMarker (marker : UInt8)
  | notOnCurve
  | pointAtInfinity
  | invalidScalar
  deriving DecidableEq, Repr

namespace CurveError

def message : CurveError → String
  | invalidLength length =>
    s!"invalid point encoding length {length}, expected 32, 33 or 65 bytes"
  | invalidMarker marker => "invalid point encoding prefix 0x" ++ Bytes.toHex [marker]
  | notOnCurve => "point is not on the secp256k1 curve"
  | pointAtInfinity => "point at infinity"
  | invalidScalar => "scalar is zero or not below the curve order"

end CurveError

/-- The point at infinity, or a pair of coordinates. Coordinates are taken as
they are; `Point.ofCoordinates` is the constructor that checks the equation. -/
inductive Point
  | infinity
  | affine (x y : FieldElement)
  deriving DecidableEq

namespace Point

instance : Inhabited Point := ⟨infinity⟩

def curveCubic (x : FieldElement) : FieldElement :=
  x.square * x + Residue.ofWord 7

def ofCoordinates (x y : FieldElement) : Except CurveError Point :=
  if y.square = curveCubic x then .ok (affine x y) else .error .notOnCurve

def generator : Point :=
  affine
    ⟨⟨0x59f2815b16f81798, 0x029bfcdb2dce28d9, 0x55a06295ce870b07, 0x79be667ef9dcbbac⟩, by decide⟩
    ⟨⟨0x9c47d08ffb10d4b8, 0xfd17b448a6855419, 0x5da4fbfc0e1108a8, 0x483ada7726a3c465⟩, by decide⟩

def isInfinity : Point → Bool
  | infinity => true
  | affine _ _ => false

def x? : Point → Option FieldElement
  | infinity => none
  | affine x _ => some x

/-- The point at infinity has no second coordinate, so none that is even. -/
def hasEvenY : Point → Bool
  | infinity => false
  | affine _ y => !y.isOdd

def neg : Point → Point
  | infinity => infinity
  | affine x y => affine x (-y)

/-- The point with this first coordinate whose second coordinate is even. -/
def liftX (xBytes : Bytes32) : Except CurveError Point :=
  match FieldElement.ofBytes? xBytes with
  | none => .error .notOnCurve
  | some x =>
    match FieldElement.squareRoot (curveCubic x) with
    | none => .error .notOnCurve
    | some y => .ok (affine x (if y.isOdd then -y else y))

def uncompressedMarker : UInt8 := 0x04

def evenMarker : UInt8 := 0x02

def oddMarker : UInt8 := 0x03

/-- How a point is written: both coordinates, the first with the parity of the
second, or the first alone. -/
inductive Format
  | uncompressed
  | compressed
  | xOnly
  deriving DecidableEq

def encodeCoordinates (x y : FieldElement) : Format → Bytes
  | .uncompressed => uncompressedMarker :: (x.toBytes.bytes ++ y.toBytes.bytes)
  | .compressed => (if y.isOdd then oddMarker else evenMarker) :: x.toBytes.bytes
  | .xOnly => x.toBytes.bytes

def encode (format : Format) : Point → Except CurveError Bytes
  | infinity => .error .pointAtInfinity
  | affine x y => .ok (encodeCoordinates x y format)

def decodeUncompressed (xBytes yBytes : Bytes32) : Except CurveError Point :=
  match FieldElement.ofBytes? xBytes, FieldElement.ofBytes? yBytes with
  | some x, some y => ofCoordinates x y
  | _, _ => .error .notOnCurve

def decodeCompressed (marker : UInt8) (xBytes : Bytes32) : Except CurveError Point :=
  if marker = evenMarker then liftX xBytes
  else if marker = oddMarker then (liftX xBytes).map neg
  else .error (.invalidMarker marker)

def decode (bytes : Bytes) : Except CurveError Point :=
  if wide : bytes.length = 65 then
    let marker := bytes.headD 0
    if marker = uncompressedMarker then
      decodeUncompressed (Bytes32.slice bytes 1 (by omega)) (Bytes32.slice bytes 33 (by omega))
    else .error (.invalidMarker marker)
  else if marked : bytes.length = 33 then
    decodeCompressed (bytes.headD 0) (Bytes32.slice bytes 1 (by omega))
  else if bare : bytes.length = 32 then liftX ⟨bytes, bare⟩
  else .error (.invalidLength bytes.length)

end Point

end BitcoinSigning
