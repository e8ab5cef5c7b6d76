import BitcoinSigning.Proofs.Curve.ChordTangent
import Mathlib.AlgebraicGeometry.EllipticCurve.Affine.Point
/-!
The points of the curve as a group. Points are read in the group of a
Weierstrass curve without changing their coordinates; there the law of chords
and tangents is known to be associative. The constant of the equation stays a
parameter as long as nothing depends on it.
-/

namespace BitcoinSigning

def curve (b : FieldElement) : WeierstrassCurve.Affine FieldElement := ⟨0, 0, 0, 0, b⟩

namespace curve

variable {b x y x₁ y₁ x₂ y₂ : FieldElement}

theorem equation_iff : (curve b).Equation x y ↔ y ^ 2 = x ^ 3 + b := by
  rw [WeierstrassCurve.Affine.equation_iff]
  simp only [curve, zero_mul, add_zero]

theorem nonsingular_iff :
    (curve b).Nonsingular x y ↔ y ^ 2 = x ^ 3 + b ∧ ¬(x = 0 ∧ y = 0) := by
  have three : (3 : FieldElement) ≠ 0 :=
    Residue.natCast_ne_zero (m := fieldModulus) (n := 3) (by decide) (by decide)
  rw [WeierstrassCurve.Affine.nonsingular_iff', equation_iff]
  simp only [curve, zero_mul, mul_zero, add_zero, zero_sub, neg_ne_zero, ne_eq, mul_eq_zero, three,
    FieldElement.two_ne_zero, false_or, pow_eq_zero_iff, OfNat.ofNat_ne_zero, not_false_eq_true]
  rw [not_and_or]

theorem negY_eq : (curve b).negY x y = -y := by
  simp only [WeierstrassCurve.Affine.negY, curve, zero_mul, sub_zero]

theorem addX_eq (slope : FieldElement) :
    (curve b).addX x₁ x₂ slope = slope ^ 2 - x₁ - x₂ := by
  simp only [WeierstrassCurve.Affine.addX, curve, zero_mul, add_zero, sub_zero]

theorem addY_eq (slope : FieldElement) :
    (curve b).addY x₁ x₂ y₁ slope = slope * (x₁ - (slope ^ 2 - x₁ - x₂)) - y₁ := by
  rw [WeierstrassCurve.Affine.addY, negY_eq, WeierstrassCurve.Affine.negAddY, addX_eq]
  ring

theorem slope_of_ne (different : x₁ ≠ x₂) :
    (curve b).slope x₁ x₂ y₁ y₂ = (y₂ - y₁) / (x₂ - x₁) := by
  rw [WeierstrassCurve.Affine.slope_of_X_ne different, ← neg_sub y₂, ← neg_sub x₂, neg_div_neg_eq]

theorem slope_of_eq (same : x₁ = x₂) (notOpposite : y₁ ≠ -y₂) :
    (curve b).slope x₁ x₂ y₁ y₂ = 3 * x₁ ^ 2 / (2 * y₁) := by
  rw [WeierstrassCurve.Affine.slope_of_Y_ne same (by rwa [negY_eq]), negY_eq, sub_neg_eq_add,
    two_mul y₁]
  simp only [curve, mul_zero, zero_mul, add_zero, sub_zero]

end curve

namespace Point

variable {b : FieldElement}

def ofGroup : (curve b).Point → Point
  | .zero => infinity
  | .some x y _ => affine x y

theorem ofGroup_injective : Function.Injective (ofGroup : (curve b).Point → Point) := by
  intro A B same
  cases A with
  | zero =>
    cases B with
    | zero => rfl
    | some x y h => exact nomatch same
  | some x y h =>
    cases B with
    | zero => exact nomatch same
    | some x' y' h' =>
      obtain ⟨rfl, rfl⟩ := Point.affine.inj same
      rfl

theorem ofGroup_zero : ofGroup (0 : (curve b).Point) = infinity := rfl

theorem ofGroup_neg (A : (curve b).Point) : ofGroup (-A) = (ofGroup A).neg := by
  cases A with
  | zero => rfl
  | some x y h =>
    change affine x ((curve b).negY x y) = affine x (-y)
    rw [curve.negY_eq]

private theorem opposite_iff {x y₁ y₂ : FieldElement} (h₁ : (curve b).Nonsingular x y₁)
    (h₂ : (curve b).Nonsingular x y₂) : y₁ = -y₂ ↔ ¬(y₁ = y₂ ∧ y₁ ≠ 0) := by
  have squares : y₁ ^ 2 = y₂ ^ 2 :=
    (curve.nonsingular_iff.mp h₁).1.trans (curve.nonsingular_iff.mp h₂).1.symm
  rcases sq_eq_sq_iff_eq_or_eq_neg.mp squares with same | opposite
  · subst same
    rw [eq_neg_iff_add_eq_zero, ← two_mul, mul_eq_zero, or_iff_right FieldElement.two_ne_zero,
      not_and_not_right]
    exact ⟨fun zero _ => zero, fun zero => zero rfl⟩
  · subst opposite
    refine ⟨fun _ both => both.2 ?_, fun _ => rfl⟩
    have zero : (2 : FieldElement) * y₂ = 0 := by linear_combination -both.1
    rw [(mul_eq_zero.mp zero).resolve_left FieldElement.two_ne_zero, neg_zero]

private theorem ofGroup_some_add {x₁ y₁ x₂ y₂ : FieldElement}
    (h₁ : (curve b).Nonsingular x₁ y₁) (h₂ : (curve b).Nonsingular x₂ y₂)
    (notOpposite : ¬(x₁ = x₂ ∧ y₁ = (curve b).negY x₂ y₂)) :
    ofGroup (.some x₁ y₁ h₁ + .some x₂ y₂ h₂) =
      reflectedThird x₁ y₁ x₂ ((curve b).slope x₁ x₂ y₁ y₂) := by
  rw [WeierstrassCurve.Affine.Point.add_some notOpposite, ofGroup, reflectedThird, curve.addX_eq,
    curve.addY_eq]

theorem ofGroup_add (A B : (curve b).Point) : ofGroup (A + B) = (ofGroup A).add (ofGroup B) := by
  rw [add_eq_chordTangent]
  cases A with
  | zero =>
    change ofGroup (0 + B) = infinity.chordTangent (ofGroup B)
    rw [zero_add, infinity_chordTangent]
  | some x₁ y₁ h₁ =>
    cases B with
    | zero =>
      change ofGroup (WeierstrassCurve.Affine.Point.some x₁ y₁ h₁ + 0) = _
      rw [add_zero]
      rfl
    | some x₂ y₂ h₂ =>
      change _ = chordTangent (affine x₁ y₁) (affine x₂ y₂)
      rw [chordTangent]
      by_cases different : x₁ ≠ x₂
      · rw [ofGroup_some_add h₁ h₂ (fun both => different both.1), if_pos different,
          curve.slope_of_ne different]
      · obtain rfl : x₁ = x₂ := not_not.mp different
        rw [if_neg different]
        by_cases opposite : y₁ = -y₂
        · rw [if_neg ((opposite_iff h₁ h₂).mp opposite),
            WeierstrassCurve.Affine.Point.add_of_Y_eq rfl (by rwa [curve.negY_eq])]
          rfl
        · rw [ofGroup_some_add h₁ h₂ (fun both => opposite (by rw [both.2, curve.negY_eq])),
            if_pos (not_not.mp (mt (opposite_iff h₁ h₂).mpr opposite)),
            curve.slope_of_eq rfl opposite]

/-! The points of secp256k1. -/

inductive OnCurve : Point → Prop
  | infinity : OnCurve infinity
  | affine {x y : FieldElement} (equation : y ^ 2 = x ^ 3 + 7) : OnCurve (affine x y)

theorem curveCubic_eq (x : FieldElement) : curveCubic x = x ^ 3 + 7 := by
  have constant : (Residue.ofWord 7 : FieldElement) = 7 := Residue.ofWord_eq 7
  rw [curveCubic, Residue.square_eq, constant, ← pow_succ]

theorem onCurve_affine_iff {x y : FieldElement} :
    (affine x y).OnCurve ↔ y.square = curveCubic x := by
  rw [Residue.square_eq, curveCubic_eq]
  exact ⟨fun (.affine equation) => equation, .affine⟩

theorem generator_onCurve : generator.OnCurve :=
  onCurve_affine_iff.mpr (by decide +kernel)

theorem seven_ne_zero : (7 : FieldElement) ≠ 0 :=
  Residue.natCast_ne_zero (m := fieldModulus) (n := 7) (by decide) (by decide)

/-- The curve has no singular point, so each of its points is in the group. -/
theorem onCurve_iff_exists {p : Point} : p.OnCurve ↔ ∃ A : (curve 7).Point, ofGroup A = p := by
  constructor
  · intro on
    cases on with
    | infinity => exact ⟨0, rfl⟩
    | @affine x y equation =>
      have regular : ¬(x = 0 ∧ y = 0) := by
        rintro ⟨rfl, rfl⟩
        rw [zero_pow two_ne_zero, zero_pow three_ne_zero, zero_add] at equation
        exact seven_ne_zero equation.symm
      exact ⟨.some x y (curve.nonsingular_iff.mpr ⟨equation, regular⟩), rfl⟩
  · rintro ⟨A, rfl⟩
    cases A with
    | zero => exact .infinity
    | some x y h => exact .affine (curve.nonsingular_iff.mp h).1

theorem ofGroup_onCurve (A : (curve 7).Point) : (ofGroup A).OnCurve :=
  onCurve_iff_exists.mpr ⟨A, rfl⟩

theorem OnCurve.neg {p : Point} (on : p.OnCurve) : p.neg.OnCurve := by
  obtain ⟨A, rfl⟩ := onCurve_iff_exists.mp on
  rw [← ofGroup_neg]
  exact ofGroup_onCurve (-A)

theorem OnCurve.add {p q : Point} (onP : p.OnCurve) (onQ : q.OnCurve) : (p.add q).OnCurve := by
  obtain ⟨A, rfl⟩ := onCurve_iff_exists.mp onP
  obtain ⟨B, rfl⟩ := onCurve_iff_exists.mp onQ
  rw [← ofGroup_add]
  exact ofGroup_onCurve (A + B)

/-- Addition and negation make the points of the curve a commutative group. The
sum is found by chords and tangents, also where a formula has no value. -/
theorem group_of_onCurve (p q r : Point) (onP : p.OnCurve) (onQ : q.OnCurve) (onR : r.OnCurve) :
    infinity.OnCurve ∧ (p.add q).OnCurve ∧ p.neg.OnCurve ∧
      (p.add q).add r = p.add (q.add r) ∧
      p.add q = q.add p ∧
      infinity.add p = p ∧ p.add infinity = p ∧
      p.add p.neg = infinity ∧ p.neg.add p = infinity ∧
      p.add q = p.chordTangent q := by
  refine ⟨.infinity, onP.add onQ, onP.neg, ?_⟩
  obtain ⟨A, rfl⟩ := onCurve_iff_exists.mp onP
  obtain ⟨B, rfl⟩ := onCurve_iff_exists.mp onQ
  obtain ⟨C, rfl⟩ := onCurve_iff_exists.mp onR
  rw [← ofGroup_neg, ← ofGroup_zero (b := 7), ← add_eq_chordTangent]
  simp only [← ofGroup_add]
  refine ⟨?_, ?_, ?_, ?_, ?_, ?_, trivial⟩
  · rw [add_assoc]
  · rw [add_comm]
  · rw [zero_add]
  · rw [add_zero]
  · rw [add_neg_cancel]
  · rw [neg_add_cancel]

theorem group_of_onCurve_generator :
    generator.OnCurve ∧ generator.neg.OnCurve ∧
      (generator.add generator.neg).add generator = generator.add (generator.neg.add generator) ∧
      generator.add generator.neg = infinity := by
  have law := group_of_onCurve generator generator.neg generator generator_onCurve
    generator_onCurve.neg generator_onCurve
  exact ⟨generator_onCurve, generator_onCurve.neg, law.2.2.2.1, law.2.2.2.2.2.2.2.1⟩

end Point

end BitcoinSigning
