import BitcoinSigning.Proofs.Curve.Multiples
/-!
A first coordinate alone stands for the point whose second coordinate is even. No
point is its own opposite, so of two opposite points exactly one is meant, and of
two opposite scalars exactly one leads to it.
-/

namespace BitcoinSigning

theorem FieldElement.isOdd_evenOf (y : FieldElement) : (evenOf y).isOdd = false := by
  unfold evenOf
  cases odd : y.isOdd with
  | false =>
    rw [if_neg Bool.false_ne_true]
    exact odd
  | true =>
    have nonzero : y ≠ 0 := by
      rintro rfl
      exact nomatch odd
    rw [if_pos rfl, isOdd_neg nonzero, odd]
    rfl

open FieldElement

namespace Point

variable {x y : FieldElement} {p : Point}

def even : Point → Point
  | infinity => infinity
  | affine x y => affine x (evenOf y)

theorem even_eq (p : Point) : p.even = if p.hasEvenY then p else p.neg := by
  cases p with
  | infinity => rfl
  | affine x y =>
    rw [even, evenOf, hasEvenY]
    cases y.isOdd <;> rfl

theorem x?_neg (p : Point) : p.neg.x? = p.x? := by
  cases p <;> rfl

theorem OnCurve.hasEvenY_neg (on : (Point.affine x y).OnCurve) :
    (Point.affine x y).neg.hasEvenY = !(Point.affine x y).hasEvenY := by
  rw [Point.neg, hasEvenY, hasEvenY, isOdd_neg on.y_ne_zero]

theorem OnCurve.liftX_toBytes_eq_ok_iff (on : p.OnCurve) :
    liftX x.toBytes = .ok p ↔ p.hasEvenY = true ∧ p.x? = some x := by
  constructor
  · intro lifted
    obtain ⟨x', root, read, -, rfl⟩ := liftX_eq_ok_iff.mp lifted
    obtain rfl : x = x' := Option.some.inj ((Residue.ofBytes?_toBytes x).symm.trans read)
    rw [hasEvenY, isOdd_evenOf]
    exact ⟨rfl, rfl⟩
  · rintro ⟨parity, first⟩
    cases on with
    | infinity => exact nomatch first
    | @affine x' y equation =>
      obtain rfl : x' = x := Option.some.inj first
      rw [hasEvenY, Bool.not_eq_true'] at parity
      rw [liftX_toBytes (.affine equation), evenOf, parity]
      rfl

theorem OnCurve.liftX_even (on : p.OnCurve) (first : p.x? = some x) :
    liftX x.toBytes = .ok p.even := by
  cases on with
  | infinity => exact nomatch first
  | affine equation =>
    obtain rfl := Option.some.inj first
    exact liftX_toBytes (.affine equation)

end Point

namespace Scalar

/-- The one of a scalar and its opposite that takes the generator to an even point. -/
def evenOf (a : Scalar) : Scalar :=
  if (Point.mulGenerator a).hasEvenY then a else -a

theorem mulGenerator_evenOf (a : Scalar) :
    Point.mulGenerator (evenOf a) = (Point.mulGenerator a).even := by
  rw [evenOf, Point.even_eq, apply_ite Point.mulGenerator, Point.mulGenerator_neg]

theorem evenOf_neg {a : Scalar} (nonzero : a ≠ 0) : evenOf (-a) = evenOf a := by
  obtain ⟨x, y, value, on⟩ := Point.exists_affine_of_mulGenerator nonzero
  rw [evenOf, evenOf, Point.mulGenerator_neg, value, on.hasEvenY_neg, neg_neg]
  cases (Point.affine x y).hasEvenY <;> rfl

end Scalar

end BitcoinSigning
