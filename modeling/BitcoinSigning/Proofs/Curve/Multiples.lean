import BitcoinSigning.Proofs.Curve.Decoding
import BitcoinSigning.Proofs.Curve.Order
/-!
The scalars act on the points of the curve. Their arithmetic wraps around at the
group order, and because every point has this order, no multiple notices.
-/

namespace BitcoinSigning.Point

theorem ofGroup_eq_infinity_iff {A : (curve 7).Point} : ofGroup A = infinity ↔ A = 0 := by
  rw [← ofGroup_zero (b := 7)]
  exact ofGroup_injective.eq_iff

theorem nsmul_toNat_add (a b : Scalar) (A : (curve 7).Point) :
    (a + b).toNat • A = a.toNat • A + b.toNat • A := by
  rw [Residue.toNat_add, nsmul_mod, add_nsmul]

theorem nsmul_toNat_mul (a b : Scalar) (A : (curve 7).Point) :
    (a * b).toNat • A = a.toNat • b.toNat • A := by
  rw [Residue.toNat_mul, nsmul_mod, mul_nsmul']

theorem nsmul_toNat_neg (a : Scalar) (A : (curve 7).Point) :
    (-a).toNat • A = -(a.toNat • A) := by
  rw [eq_neg_iff_add_eq_zero, ← nsmul_toNat_add, neg_add_cancel]
  exact zero_nsmul A

theorem nsmul_toNat_eq_zero_iff (a : Scalar) (A : (curve 7).Point) :
    a.toNat • A = 0 ↔ a = 0 ∨ A = 0 := by
  have divides : groupOrder.value.toNat ∣ a.toNat ↔ a = 0 := by
    rw [← Residue.isZero_eq_true, Residue.isZero_iff]
    constructor
    · intro multiple
      exact Nat.eq_zero_of_dvd_of_lt multiple a.toNat_lt
    · intro zero
      rw [zero]
      exact Nat.dvd_zero _
  rw [nsmul_eq_zero_iff, divides]

theorem exists_ofGroup_eq_generator : ∃ G : (curve 7).Point, G ≠ 0 ∧ ofGroup G = generator := by
  obtain ⟨G, form⟩ := onCurve_iff_exists.mp generator_onCurve
  refine ⟨G, ?_, form⟩
  rintro rfl
  cases form

theorem mulGenerator_eq_infinity_iff {a : Scalar} : mulGenerator a = infinity ↔ a = 0 := by
  obtain ⟨G, nonzero, form⟩ := exists_ofGroup_eq_generator
  rw [mulGenerator, ← form, ofGroup_mul, ofGroup_eq_infinity_iff, nsmul_toNat_eq_zero_iff,
    or_iff_left nonzero]

theorem exists_affine_of_mulGenerator {a : Scalar} (nonzero : a ≠ 0) :
    ∃ x y, mulGenerator a = affine x y ∧ (affine x y).OnCurve := by
  have on : (mulGenerator a).OnCurve := generator_onCurve.mul a
  cases value : mulGenerator a with
  | infinity => exact absurd (mulGenerator_eq_infinity_iff.mp value) nonzero
  | affine x y =>
    rw [value] at on
    exact ⟨x, y, rfl, on⟩

theorem mulAddGenerator_mulGenerator (secret a b : Scalar) :
    (mulGenerator secret).mulAddGenerator a b = mulGenerator (a + b * secret) := by
  obtain ⟨G, form⟩ := onCurve_iff_exists.mp generator_onCurve
  rw [mulAddGenerator_eq]
  simp only [mulGenerator, ← form, ofGroup_mul]
  rw [← ofGroup_add, nsmul_toNat_add, nsmul_toNat_mul]

theorem mulGenerator_neg (a : Scalar) : mulGenerator (-a) = (mulGenerator a).neg := by
  obtain ⟨G, form⟩ := onCurve_iff_exists.mp generator_onCurve
  simp only [mulGenerator, ← form, ofGroup_mul]
  rw [nsmul_toNat_neg, ofGroup_neg]

theorem mulGenerator_add (a b : Scalar) :
    mulGenerator (a + b) = (mulGenerator a).add (mulGenerator b) := by
  obtain ⟨G, form⟩ := onCurve_iff_exists.mp generator_onCurve
  simp only [mulGenerator, ← form, ofGroup_mul]
  rw [nsmul_toNat_add, ofGroup_add]

theorem mul_mulGenerator (a b : Scalar) : (mulGenerator b).mul a = mulGenerator (a * b) := by
  obtain ⟨G, form⟩ := onCurve_iff_exists.mp generator_onCurve
  simp only [mulGenerator, ← form, ofGroup_mul]
  rw [nsmul_toNat_mul]

theorem OnCurve.mul_neg {p : Point} (on : p.OnCurve) (a : Scalar) :
    p.mul (-a) = (p.mul a).neg := by
  obtain ⟨A, rfl⟩ := onCurve_iff_exists.mp on
  rw [ofGroup_mul, ofGroup_mul, nsmul_toNat_neg, ofGroup_neg]

theorem OnCurve.neg_mul {p : Point} (on : p.OnCurve) (a : Scalar) :
    p.neg.mul a = (p.mul a).neg := by
  obtain ⟨A, rfl⟩ := onCurve_iff_exists.mp on
  rw [← ofGroup_neg, ofGroup_mul, ofGroup_mul, ← ofGroup_neg, neg_nsmul]

theorem OnCurve.mul_eq_infinity_iff {p : Point} (on : p.OnCurve) (a : Scalar) :
    p.mul a = Point.infinity ↔ a = 0 ∨ p = Point.infinity := by
  obtain ⟨A, rfl⟩ := onCurve_iff_exists.mp on
  rw [ofGroup_mul, ofGroup_eq_infinity_iff, ofGroup_eq_infinity_iff, nsmul_toNat_eq_zero_iff]

theorem mulAddGenerator_neg_neg {p : Point} (on : p.OnCurve) (a b : Scalar) :
    p.mulAddGenerator (-a) (-b) = (p.mulAddGenerator a b).neg := by
  obtain ⟨G, form⟩ := onCurve_iff_exists.mp generator_onCurve
  rw [mulAddGenerator_eq, mulAddGenerator_eq]
  obtain ⟨A, rfl⟩ := onCurve_iff_exists.mp on
  simp only [mulGenerator, ← form, ofGroup_mul]
  rw [← ofGroup_add, ← ofGroup_add, ← ofGroup_neg, nsmul_toNat_neg, nsmul_toNat_neg, neg_add]

theorem mulAddGenerator_neg_eq_iff {p q : Point} (onP : p.OnCurve) (onQ : q.OnCurve)
    (a b : Scalar) : p.mulAddGenerator a (-b) = q ↔ mulGenerator a = q.add (p.mul b) := by
  obtain ⟨G, form⟩ := onCurve_iff_exists.mp generator_onCurve
  rw [mulAddGenerator_eq]
  obtain ⟨A, rfl⟩ := onCurve_iff_exists.mp onP
  obtain ⟨B, rfl⟩ := onCurve_iff_exists.mp onQ
  simp only [mulGenerator, ← form, ofGroup_mul, ← ofGroup_add, nsmul_toNat_neg,
    ofGroup_injective.eq_iff]
  exact add_neg_eq_iff_eq_add

/-- There are as many scalars as points, so the generator's multiples are all of
the points, each of them once. -/
theorem OnCurve.existsUnique_mulGenerator {p : Point} (on : p.OnCurve) :
    ∃! a : Scalar, mulGenerator a = p := by
  obtain ⟨G, nonzero, form⟩ := exists_ofGroup_eq_generator
  obtain ⟨A, rfl⟩ := onCurve_iff_exists.mp on
  have injective : Function.Injective fun a : Scalar => a.toNat • G := by
    intro a b same
    have difference : (a + -b).toNat • G = 0 := by
      rw [nsmul_toNat_add, nsmul_toNat_neg, add_neg_eq_zero]
      exact same
    exact add_neg_eq_zero.mp
      (((nsmul_toNat_eq_zero_iff (a + -b) G).mp difference).resolve_right nonzero)
  have many : Nat.card (curve 7).Point ≤ Nat.card Scalar := by
    rw [card_eq, Residue.card_residue]
  simp only [mulGenerator, ← form, ofGroup_mul, ofGroup_injective.eq_iff]
  exact (injective.bijective_of_nat_card_le many).existsUnique A

theorem mulGenerator_injective : Function.Injective mulGenerator := fun _ b same =>
  (generator_onCurve.mul b).existsUnique_mulGenerator.unique same rfl

theorem iterate_groupOrder {p : Point} (on : p.OnCurve) :
    p.add^[groupOrder.value.toNat] infinity = infinity := by
  obtain ⟨A, rfl⟩ := onCurve_iff_exists.mp on
  rw [← ofGroup_nsmul, groupOrder_nsmul, ofGroup_zero]

/-- Multiples of a point of the curve are repeated sums, and turn the operations
on scalars into those on points. Decoded points are such points. -/
theorem mul_of_onCurve :
    (∀ p : Point, p.OnCurve → ∀ a b : Scalar,
      p.mul a = p.add^[a.toNat] infinity ∧
      p.mul (a + b) = (p.mul a).add (p.mul b) ∧
      p.mul (a * b) = (p.mul b).mul a ∧
      p.mul (-a) = (p.mul a).neg ∧
      (p.mul a = infinity ↔ a = 0 ∨ p = infinity) ∧
      p.add^[groupOrder.value.toNat] infinity = infinity) ∧
    ∀ (bytes : Bytes) (p : Point), decode bytes = .ok p →
      p.OnCurve ∧ p.add^[groupOrder.value.toNat] infinity = infinity := by
  constructor
  · intro p on a b
    refine ⟨mul_eq_iterate on a, ?_, ?_, ?_, ?_, iterate_groupOrder on⟩ <;>
      obtain ⟨A, rfl⟩ := onCurve_iff_exists.mp on <;> simp only [ofGroup_mul]
    · rw [← ofGroup_add, nsmul_toNat_add]
    · rw [nsmul_toNat_mul]
    · rw [← ofGroup_neg, nsmul_toNat_neg]
    · rw [ofGroup_eq_infinity_iff, ofGroup_eq_infinity_iff, nsmul_toNat_eq_zero_iff]
  · intro bytes p decoded
    have on := decode_onCurve decoded
    exact ⟨on, iterate_groupOrder on⟩

/-- The generator is a decoded point, and twice its half is the generator again. -/
theorem mul_of_onCurve_generator :
    generator.mul (2 * 2⁻¹) = (generator.mul 2⁻¹).mul 2 ∧
      generator.add^[groupOrder.value.toNat] infinity = infinity := by
  have decoded : decode (encodeCoordinates _ _ .compressed) = .ok generator :=
    decode_compressed generator_onCurve
  have laws := mul_of_onCurve.1 generator generator_onCurve 2 2⁻¹
  exact ⟨laws.2.2.1, (mul_of_onCurve.2 _ generator decoded).2⟩

end BitcoinSigning.Point
