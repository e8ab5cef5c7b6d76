import BitcoinSigning.Curve.Jacobian
import BitcoinSigning.Proofs.Modular.PrimeField
import Mathlib.Tactic.FieldSimp
import Mathlib.Tactic.LinearCombination
/-!
The law of chords and tangents on affine coordinates, and that the formulas
without division compute it. A triple is brought into the form of an affine
point scaled by its last coordinate; there every formula is an identity of
polynomials. No equation of a curve is needed for any of this.
-/

namespace BitcoinSigning

namespace Point

/-- Where the line of this slope through the first point meets the curve for the
third time, reflected. Only the first coordinate of the second point enters. -/
def reflectedThird (x₁ y₁ x₂ slope : FieldElement) : Point :=
  let x := slope ^ 2 - x₁ - x₂
  affine x (slope * (x₁ - x) - y₁)

/-- The sum of two points, along the chord between them or the tangent at both.
A vertical line meets the curve at infinity. -/
def chordTangent : Point → Point → Point
  | infinity, q => q
  | p, infinity => p
  | affine x₁ y₁, affine x₂ y₂ =>
    if x₁ ≠ x₂ then reflectedThird x₁ y₁ x₂ ((y₂ - y₁) / (x₂ - x₁))
    else if y₁ = y₂ ∧ y₁ ≠ 0 then reflectedThird x₁ y₁ x₂ (3 * x₁ ^ 2 / (2 * y₁))
    else infinity

theorem infinity_chordTangent (q : Point) : chordTangent infinity q = q := by
  cases q <;> rfl

theorem chordTangent_infinity (p : Point) : chordTangent p infinity = p := by
  cases p <;> rfl

end Point

theorem FieldElement.two_ne_zero : (2 : FieldElement) ≠ 0 := by
  exact_mod_cast Residue.natCast_ne_zero (m := fieldModulus) (n := 2) (by decide) (by decide)

namespace Jacobian

variable {x y z x₁ y₁ z₁ x₂ y₂ z₂ : FieldElement}

def scaled (x y z : FieldElement) : Jacobian := ⟨x * z ^ 2, y * z ^ 3, z⟩

theorem isInfinity_iff (p : Jacobian) : p.isInfinity = true ↔ p.z = 0 := p.z.isZero_eq_true

theorem toPoint_of_isInfinity {p : Jacobian} (zero : p.z = 0) : p.toPoint = .infinity := by
  rw [toPoint, zero, Residue.invert_zero]

theorem toPoint_infinity : infinity.toPoint = .infinity := toPoint_of_isInfinity rfl

theorem toPoint_scaled (x y : FieldElement) (finite : z ≠ 0) :
    (scaled x y z).toPoint = .affine x y := by
  have atX : x * z ^ 2 * z⁻¹ ^ 2 = x := by field_simp
  have atY : y * z ^ 3 * (z⁻¹ ^ 2 * z⁻¹) = y := by field_simp
  simp only [toPoint, scaled, Residue.invert_eq finite, Residue.square_eq, atX, atY]

theorem exists_scaled (p : Jacobian) (finite : p.z ≠ 0) :
    ∃ x y, p = scaled x y p.z := by
  refine ⟨p.x / p.z ^ 2, p.y / p.z ^ 3, ?_⟩
  obtain ⟨x, y, z⟩ := p
  simp only at finite
  simp only [scaled, div_mul_cancel₀ _ (pow_ne_zero 2 finite),
    div_mul_cancel₀ _ (pow_ne_zero 3 finite)]

theorem ofPoint_affine (x y : FieldElement) : ofPoint (.affine x y) = scaled x y 1 := by
  simp only [ofPoint, scaled, Residue.one_eq, one_pow, mul_one]

theorem toPoint_ofPoint (p : Point) : (ofPoint p).toPoint = p := by
  cases p with
  | infinity => exact toPoint_infinity
  | affine x y => rw [ofPoint_affine, toPoint_scaled x y one_ne_zero]

/-! Doubling. -/

theorem double_of_isInfinity {p : Jacobian} (zero : p.z = 0) : p.double = infinity := by
  rw [double, if_pos]
  rw [Bool.or_eq_true, isInfinity_iff]
  exact Or.inl zero

theorem double_scaled_zero (x z : FieldElement) : (scaled x 0 z).double = infinity := by
  rw [double, if_pos]
  rw [Bool.or_eq_true, Residue.isZero_eq_true]
  exact Or.inr (zero_mul (z ^ 3))

theorem double_scaled (finite : z ≠ 0) (nonzero : y ≠ 0) {slope : FieldElement}
    (tangent : slope * (2 * y) = 3 * x ^ 2) :
    (scaled x y z).double = scaled (slope ^ 2 - x - x)
      (slope * (x - (slope ^ 2 - x - x)) - y) (2 * y * z ^ 4) := by
  have general : ¬((scaled x y z).isInfinity || (scaled x y z).y.isZero) = true := by
    rw [Bool.or_eq_true, isInfinity_iff, Residue.isZero_eq_true, not_or]
    exact ⟨finite, mul_ne_zero nonzero (pow_ne_zero 3 finite)⟩
  have scaledSlope : 2 * (x * z ^ 2) ^ 2 + (x * z ^ 2) ^ 2 = slope * (2 * y) * z ^ 4 := by
    linear_combination (-z ^ 4) * tangent
  rw [double, if_neg general]
  simp only [scaled, Residue.square_eq, Residue.double_eq, scaledSlope, Jacobian.mk.injEq]
  refine ⟨?_, ?_, ?_⟩ <;> ring

theorem toPoint_double (p : Jacobian) : p.double.toPoint = p.toPoint.chordTangent p.toPoint := by
  by_cases zero : p.z = 0
  · rw [double_of_isInfinity zero, toPoint_infinity, toPoint_of_isInfinity zero]
    rfl
  · obtain ⟨x, y, form⟩ := p.exists_scaled zero
    rw [form, toPoint_scaled x y zero, Point.chordTangent, if_neg (not_not.mpr rfl)]
    by_cases flat : y = 0
    · rw [flat, double_scaled_zero, toPoint_infinity, if_neg (fun both => both.2 rfl)]
    · have denominator : 2 * y ≠ 0 := mul_ne_zero FieldElement.two_ne_zero flat
      rw [if_pos ⟨rfl, flat⟩, double_scaled zero flat (div_mul_cancel₀ (3 * x ^ 2) denominator),
        toPoint_scaled _ _ (mul_ne_zero denominator (pow_ne_zero 4 zero))]
      rfl

/-! Addition. -/

theorem add_of_left_isInfinity {p : Jacobian} (q : Jacobian) (zero : p.z = 0) : p.add q = q := by
  rw [add, if_pos (p.isInfinity_iff.mpr zero)]

theorem add_of_right_isInfinity {p q : Jacobian} (finite : p.z ≠ 0) (zero : q.z = 0) :
    p.add q = p := by
  rw [add, if_neg (mt p.isInfinity_iff.mp finite), if_pos (q.isInfinity_iff.mpr zero)]

section Finite

variable (finite₁ : z₁ ≠ 0) (finite₂ : z₂ ≠ 0)

include finite₁ finite₂

private theorem run_scaled :
    x₂ * z₂ ^ 2 * z₁ ^ 2 - x₁ * z₁ ^ 2 * z₂ ^ 2 = 0 ↔ x₁ = x₂ := by
  have factored : x₂ * z₂ ^ 2 * z₁ ^ 2 - x₁ * z₁ ^ 2 * z₂ ^ 2 = (x₂ - x₁) * (z₁ * z₂) ^ 2 := by
    ring
  rw [factored, mul_eq_zero, sub_eq_zero, eq_comm,
    or_iff_left (pow_ne_zero 2 (mul_ne_zero finite₁ finite₂))]

private theorem rise_scaled :
    y₂ * z₂ ^ 3 * (z₁ * z₁ ^ 2) - y₁ * z₁ ^ 3 * (z₂ * z₂ ^ 2) = 0 ↔ y₁ = y₂ := by
  have factored : y₂ * z₂ ^ 3 * (z₁ * z₁ ^ 2) - y₁ * z₁ ^ 3 * (z₂ * z₂ ^ 2) =
      (y₂ - y₁) * (z₁ * z₂) ^ 3 := by ring
  rw [factored, mul_eq_zero, sub_eq_zero, eq_comm,
    or_iff_left (pow_ne_zero 3 (mul_ne_zero finite₁ finite₂))]

theorem add_scaled_of_ne (different : x₁ ≠ x₂) {slope : FieldElement}
    (chord : slope * (x₂ - x₁) = y₂ - y₁) :
    (scaled x₁ y₁ z₁).add (scaled x₂ y₂ z₂) = scaled (slope ^ 2 - x₁ - x₂)
      (slope * (x₁ - (slope ^ 2 - x₁ - x₂)) - y₁) ((x₂ - x₁) * (z₁ * z₂) ^ 3) := by
  have scaledRise : y₂ * z₂ ^ 3 * (z₁ * z₁ ^ 2) - y₁ * z₁ ^ 3 * (z₂ * z₂ ^ 2) =
      slope * (x₂ - x₁) * (z₁ * z₂) ^ 3 := by
    linear_combination (-(z₁ * z₂) ^ 3) * chord
  have run := mt (run_scaled finite₁ finite₂).mp different
  rw [add, if_neg (mt (isInfinity_iff _).mp finite₁), if_neg (mt (isInfinity_iff _).mp finite₂)]
  simp only [scaled, Residue.square_eq, Residue.double_eq, Residue.isZero_eq_true, if_neg run,
    scaledRise, Jacobian.mk.injEq]
  refine ⟨?_, ?_, ?_⟩ <;> ring

theorem add_scaled_of_eq (x y₁ y₂ : FieldElement) :
    (scaled x y₁ z₁).add (scaled x y₂ z₂) =
      if y₁ = y₂ then (scaled x y₁ z₁).double else infinity := by
  have run := (run_scaled finite₁ finite₂).mpr (Eq.refl x)
  rw [add, if_neg (mt (isInfinity_iff _).mp finite₁), if_neg (mt (isInfinity_iff _).mp finite₂)]
  simp only [scaled, Residue.square_eq, Residue.isZero_eq_true, if_pos run,
    rise_scaled finite₁ finite₂]

end Finite

/-- Whatever the two triples are, the point of their sum is the sum of their
points by the law of chords and tangents. -/
theorem toPoint_add (p q : Jacobian) : (p.add q).toPoint = p.toPoint.chordTangent q.toPoint := by
  by_cases zero₁ : p.z = 0
  · rw [add_of_left_isInfinity q zero₁, toPoint_of_isInfinity zero₁, Point.infinity_chordTangent]
  by_cases zero₂ : q.z = 0
  · rw [add_of_right_isInfinity zero₁ zero₂, toPoint_of_isInfinity zero₂,
      Point.chordTangent_infinity]
  obtain ⟨x₁, y₁, form₁⟩ := p.exists_scaled zero₁
  obtain ⟨x₂, y₂, form₂⟩ := q.exists_scaled zero₂
  rw [form₁, form₂, toPoint_scaled x₁ y₁ zero₁, toPoint_scaled x₂ y₂ zero₂]
  by_cases same : x₁ = x₂
  · subst same
    rw [add_scaled_of_eq zero₁ zero₂, Point.chordTangent, if_neg (not_not.mpr rfl)]
    by_cases equal : y₁ = y₂
    · subst equal
      rw [if_pos rfl, toPoint_double, toPoint_scaled x₁ y₁ zero₁, Point.chordTangent,
        if_neg (not_not.mpr rfl)]
    · rw [if_neg equal, toPoint_infinity, if_neg (fun both => equal both.1)]
  · have denominator : x₂ - x₁ ≠ 0 := sub_ne_zero.mpr (Ne.symm same)
    rw [add_scaled_of_ne zero₁ zero₂ same (div_mul_cancel₀ (y₂ - y₁) denominator),
      toPoint_scaled _ _ (mul_ne_zero denominator (pow_ne_zero 3 (mul_ne_zero zero₁ zero₂))),
      Point.chordTangent, if_pos same]
    rfl

end Jacobian

theorem Point.add_eq_chordTangent (p q : Point) : p.add q = p.chordTangent q := by
  rw [add, Jacobian.toPoint_add, Jacobian.toPoint_ofPoint, Jacobian.toPoint_ofPoint]

end BitcoinSigning
