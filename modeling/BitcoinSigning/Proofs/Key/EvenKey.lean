import BitcoinSigning.Key.Public
import BitcoinSigning.Proofs.Curve.EvenLift
/-!
Private keys and their points. A key and its opposite have the same first
coordinate, and what is signed or tweaked under that coordinate is done with the
one of the two whose point is even.
-/

namespace BitcoinSigning.PrivateKey

variable (key : PrivateKey)

theorem scalar_ne_zero : key.scalar ≠ 0 := (key.scalar.isZero_eq_false).mp key.nonzero

theorem exists_publicKey : ∃ pub, key.publicKey = .ok pub ∧
    pub.toPoint = Point.mulGenerator key.scalar ∧ pub.toPoint.OnCurve := by
  obtain ⟨x, y, value, on⟩ := Point.exists_affine_of_mulGenerator key.scalar_ne_zero
  exact ⟨⟨x, y⟩, by rw [publicKey, value, PublicKey.ofPoint], value.symm, on⟩

theorem ofScalar_cases (a : Scalar) :
    (∃ key pub, ofScalar a = .ok key ∧ key.scalar = a ∧ key.publicKey = .ok pub ∧
      PublicKey.ofPoint (Point.mulGenerator a) = .ok pub) ∨
    ofScalar a = .error .invalidScalar ∧
      PublicKey.ofPoint (Point.mulGenerator a) = .error .pointAtInfinity := by
  by_cases zero : a = 0
  · subst zero
    rw [Point.mulGenerator_eq_infinity_iff.mpr rfl]
    exact Or.inr ⟨rfl, rfl⟩
  · have nonzero := a.isZero_eq_false.mpr zero
    obtain ⟨pub, found, -⟩ := exists_publicKey ⟨a, nonzero⟩
    exact Or.inl ⟨⟨a, nonzero⟩, pub, dif_pos nonzero, rfl, found, found⟩

theorem evenOf_neg : Scalar.evenOf key.neg.scalar = Scalar.evenOf key.scalar :=
  Scalar.evenOf_neg key.scalar_ne_zero

variable {key} {pub : PublicKey}

theorem publicKey_eq_ok_iff :
    key.publicKey = .ok pub ↔ Point.mulGenerator key.scalar = pub.toPoint := by
  rw [publicKey, PublicKey.ofPoint_eq_ok_iff]

theorem onCurve_of_publicKey (found : key.publicKey = .ok pub) : pub.toPoint.OnCurve := by
  rw [← publicKey_eq_ok_iff.mp found]
  exact Point.generator_onCurve.mul key.scalar

theorem publicKey_neg (found : key.publicKey = .ok pub) :
    key.neg.publicKey = .ok ⟨pub.x, -pub.y⟩ := by
  rw [publicKey_eq_ok_iff] at found ⊢
  change Point.mulGenerator (-key.scalar) = _
  rw [Point.mulGenerator_neg, found]
  rfl

theorem scalar_negIf (found : key.publicKey = .ok pub) :
    (key.negIf !pub.hasEvenY).scalar = Scalar.evenOf key.scalar := by
  have parity : pub.hasEvenY = pub.toPoint.hasEvenY := rfl
  rw [Scalar.evenOf, publicKey_eq_ok_iff.mp found, ← parity]
  cases pub.hasEvenY <;> rfl

theorem liftX_xBytes (found : key.publicKey = .ok pub) :
    Point.liftX pub.xBytes = .ok (Point.mulGenerator (Scalar.evenOf key.scalar)) := by
  rw [Scalar.mulGenerator_evenOf, publicKey_eq_ok_iff.mp found]
  exact (onCurve_of_publicKey found).liftX_even rfl

/-! The greatest key, whose point is odd. -/

/-- The opposite of the private key one. -/
def greatest : PrivateKey := ⟨-1, rfl⟩

theorem evenOf_greatest : Scalar.evenOf greatest.scalar = 1 := by
  change Scalar.evenOf (-1) = 1
  have odd : ¬Point.generator.neg.hasEvenY = true := by decide
  rw [Scalar.evenOf, Point.mulGenerator, Point.generator_mul_neg_one, if_neg odd, neg_neg]

theorem publicKey_greatest (found : greatest.publicKey = .ok pub) :
    pub.toPoint = Point.generator.neg := by
  rw [← publicKey_eq_ok_iff.mp found]
  exact Point.generator_mul_neg_one

theorem xBytes_greatest (found : greatest.publicKey = .ok pub) :
    pub.xBytes = (Point.generator.x?.getD 0).toBytes := by
  have first := congrArg Point.x? (publicKey_greatest found)
  rw [PublicKey.xBytes, Option.some.inj first]
  rfl

end BitcoinSigning.PrivateKey
