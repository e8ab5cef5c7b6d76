import BitcoinSigning.Curve.Jacobian
import BitcoinSigning.Key.Private
/-!
Public keys: points other than the point at infinity.
-/

namespace BitcoinSigning

structure PublicKey where
  x : FieldElement
  y : FieldElement
  deriving DecidableEq

namespace PublicKey

def toPoint (key : PublicKey) : Point := .affine key.x key.y

def ofPoint : Point → Except CurveError PublicKey
  | .infinity => .error .pointAtInfinity
  | .affine x y => .ok ⟨x, y⟩

def decode (bytes : Bytes) : Except CurveError PublicKey :=
  (Point.decode bytes).bind ofPoint

def encode (format : Point.Format) (key : PublicKey) : Bytes :=
  Point.encodeCoordinates key.x key.y format

def xBytes (key : PublicKey) : Bytes32 := key.x.toBytes

def hasEvenY (key : PublicKey) : Bool := !key.y.isOdd

def toText (key : PublicKey) : String := (key.encode .compressed).toHex

def description (key : PublicKey) : String := s!"PublicKey({key.toText})"

/-- The same key in another format. A first coordinate alone names the point
whose second coordinate is even. -/
def reencode (format : Point.Format) (bytes : Bytes) : Except CurveError Bytes :=
  (decode bytes).map (encode format)

def isCompressed (bytes : Bytes) : Bool :=
  bytes.length == 33 && (decode bytes).isOk

def sum (keys : List Bytes) : Except CurveError Bytes32 := do
  let total ← keys.foldlM (fun total bytes => do
    let key ← decode bytes
    return total.add key.toPoint) Point.infinity
  return (← ofPoint total).xBytes

end PublicKey

namespace PrivateKey

def publicKey (key : PrivateKey) : Except CurveError PublicKey :=
  PublicKey.ofPoint (Point.mulGenerator key.scalar)

/-- The first coordinate of the multiple of another party's public key, which
that party computes too, from its private key and the public key of this one. -/
def sharedSecret (key : PrivateKey) (other : PublicKey) : Except CurveError Bytes32 :=
  (PublicKey.ofPoint (other.toPoint.mul key.scalar)).map PublicKey.xBytes

end PrivateKey

end BitcoinSigning
