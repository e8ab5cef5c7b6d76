import BitcoinSigning.Curve.Point
import BitcoinSigning.Curve.Scalar
/-!
The group operations, on coordinates that need no division: a triple `(x, y, z)`
stands for the point `(x / z ^ 2, y / z ^ 3)`, and for the point at infinity when
`z` is zero. The constant of the curve enters none of the formulas.
-/

namespace BitcoinSigning

structure Jacobian where
  x : FieldElement
  y : FieldElement
  z : FieldElement

namespace Jacobian

def infinity : Jacobian := ⟨Residue.one, Residue.one, Residue.zero⟩

def isInfinity (p : Jacobian) : Bool := p.z.isZero

def ofPoint : Point → Jacobian
  | .infinity => infinity
  | .affine x y => ⟨x, y, Residue.one⟩

def toPoint (p : Jacobian) : Point :=
  match p.z.invert with
  | none => .infinity
  | some inverse =>
    let inverse2 := inverse.square
    .affine (p.x * inverse2) (p.y * (inverse2 * inverse))

def double (p : Jacobian) : Jacobian :=
  if p.isInfinity || p.y.isZero then infinity
  else
    let y2 := p.y.square
    let x2 := p.x.square
    let s := (p.x * y2).double.double
    let slope := x2.double + x2
    let x := slope.square - s.double
    ⟨x, slope * (s - x) - y2.square.double.double.double, (p.y * p.z).double⟩

def add (p q : Jacobian) : Jacobian :=
  if p.isInfinity then q
  else if q.isInfinity then p
  else
    let pz2 := p.z.square
    let qz2 := q.z.square
    let u := p.x * qz2
    let s := p.y * (q.z * qz2)
    let run := q.x * pz2 - u
    let rise := q.y * (p.z * pz2) - s
    if run.isZero then if rise.isZero then double p else infinity
    else
      let run2 := run.square
      let run3 := run * run2
      let v := u * run2
      let x := rise.square - run3 - v.double
      ⟨x, rise * (v - x) - s * run3, run * (p.z * q.z)⟩

/-- The multiple of a point, by a ladder: after each bit, the first of the two
running points is the multiple by the bits so far, and the second is one more. -/
def mul (p : Jacobian) (k : Scalar) : Jacobian :=
  (k.value.foldBits (fun (low, high) bit =>
    if bit then (add low high, double high) else (double low, add low high)) (infinity, p)).1

end Jacobian

namespace Point

def add (p q : Point) : Point :=
  (Jacobian.add (.ofPoint p) (.ofPoint q)).toPoint

def mul (p : Point) (k : Scalar) : Point :=
  (Jacobian.mul (.ofPoint p) k).toPoint

def mulGenerator (k : Scalar) : Point :=
  generator.mul k

def mulAddGenerator (p : Point) (a b : Scalar) : Point :=
  (Jacobian.add (Jacobian.mul (.ofPoint generator) a) (Jacobian.mul (.ofPoint p) b)).toPoint

end Point

end BitcoinSigning
