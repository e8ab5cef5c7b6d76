import BitcoinSigning.Proofs.Curve.Ladder
import BitcoinSigning.Proofs.Curve.Numbers
import Mathlib.GroupTheory.Perm.Cycle.Type
/-!
The number of points of the curve. The generator has the prime order `groupOrder`,
because the multiple by one less is its negative. A point is determined by its
first coordinate and a parity, which leaves room for at most two cosets of its
multiples; two would make a point of order two, and `-7` would be a cube. So every
point has this order, and multiples depend on the multiplier up to it.
-/

namespace BitcoinSigning

namespace Point

/-! The order of the generator. -/

theorem generator_mul_neg_one : generator.mul (-1) = generator.neg :=
  mulGenerator_of_standsFor (by decide +kernel)

theorem toNat_neg_one : (-1 : Scalar).toNat = groupOrder.value.toNat - 1 := by decide

theorem nsmul_eq_zero_of_generator {G : (curve 7).Point} (form : ofGroup G = generator) :
    groupOrder.value.toNat • G = 0 := by
  have negative : ofGroup ((groupOrder.value.toNat - 1) • G) = ofGroup (-G) := by
    rw [← toNat_neg_one, ← ofGroup_mul, ofGroup_neg, form]
    exact generator_mul_neg_one
  have split : groupOrder.value.toNat = groupOrder.value.toNat - 1 + 1 := by decide
  rw [split, succ_nsmul, ofGroup_injective negative, neg_add_cancel]

theorem addOrderOf_generator {G : (curve 7).Point} (form : ofGroup G = generator) :
    addOrderOf G = groupOrder.value.toNat := by
  apply addOrderOf_eq_prime (nsmul_eq_zero_of_generator form)
  rintro rfl
  exact nomatch form

/-! A bound on the number of points. -/

def compressed : Point → Option (FieldElement × Bool)
  | infinity => none
  | affine x y => some (x, y.isOdd)

theorem OnCurve.compressed_injective {p q : Point} (onP : p.OnCurve) (onQ : q.OnCurve)
    (same : p.compressed = q.compressed) : p = q := by
  cases onP with
  | infinity =>
    cases onQ with
    | infinity => rfl
    | affine _ => exact nomatch same
  | @affine x y equation =>
    cases onQ with
    | infinity => exact nomatch same
    | @affine x' y' equation' =>
      obtain ⟨rfl, parity⟩ := Prod.mk.inj (Option.some.inj same)
      rcases sq_eq_sq_iff_eq_or_eq_neg.mp (equation.trans equation'.symm) with rfl | rfl
      · rfl
      · by_cases zero : y' = 0
        · rw [zero, neg_zero]
        · rw [Residue.isOdd_neg (by decide) zero] at parity
          exact absurd parity (by cases y'.isOdd <;> decide)

theorem ofGroup_compressed_injective :
    Function.Injective fun A : (curve 7).Point => (ofGroup A).compressed :=
  fun A B same => ofGroup_injective
    ((ofGroup_onCurve A).compressed_injective (ofGroup_onCurve B) same)

instance : Finite (curve 7).Point := Finite.of_injective _ ofGroup_compressed_injective

theorem card_le : Nat.card (curve 7).Point ≤ 2 * fieldModulus.value.toNat + 1 := by
  have parities : Nat.card Bool = 2 := by rw [Nat.card_eq_fintype_card, Fintype.card_bool]
  have bound := Nat.card_le_card_of_injective _ ofGroup_compressed_injective
  rwa [Finite.card_option, Nat.card_prod, Residue.card_residue, parities, Nat.mul_comm] at bound

/-! No point has order two. -/

theorem neg_seven_not_cube (x : FieldElement) : x ^ 3 ≠ -7 := by
  intro cube
  have nonzero : x ≠ 0 := by
    rintro rfl
    rw [zero_pow three_ne_zero, zero_eq_neg] at cube
    exact seven_ne_zero cube
  have third : 3 * ((fieldModulus.value.toNat - 1) / 3) = fieldModulus.value.toNat - 1 := by decide
  have power : (-7 : FieldElement) ^ ((fieldModulus.value.toNat - 1) / 3) = 1 := by
    rw [← cube, ← pow_mul, third, Residue.pow_modulus_sub_one nonzero]
  have image := congrArg (Residue.toZModHom fieldModulus) power
  rw [map_pow, map_one] at image
  have cast : Residue.toZModHom fieldModulus (-7) =
      ((fieldModulus.value.toNat - 7 : Nat) : ZMod fieldModulus.value.toNat) := by
    rw [map_neg, map_ofNat, Nat.cast_sub (by decide), ZMod.natCast_self, zero_sub]
    rfl
  rw [cast, ← powIsOne_iff _ _ _ fieldModulus_prime.one_lt] at image
  exact absurd image (by decide +kernel)

theorem OnCurve.y_ne_zero {x y : FieldElement} (on : (Point.affine x y).OnCurve) : y ≠ 0 := by
  rintro rfl
  cases on with
  | affine equation =>
    rw [zero_pow two_ne_zero] at equation
    exact neg_seven_not_cube x (eq_neg_of_add_eq_zero_left equation.symm)

theorem addOrderOf_ne_two (A : (curve 7).Point) : addOrderOf A ≠ 2 := by
  intro order
  have nonzero : A ≠ 0 := by
    rintro rfl
    rw [addOrderOf_zero] at order
    exact nomatch order
  have opposite : A = -A := by
    rw [eq_neg_iff_add_eq_zero, ← two_nsmul, ← order]
    exact addOrderOf_nsmul_eq_zero A
  have same := congrArg ofGroup opposite
  rw [ofGroup_neg] at same
  cases A with
  | zero => exact nonzero rfl
  | some x y h =>
    have flat : y = -y := (affine.inj same).2
    rw [eq_neg_iff_add_eq_zero, ← two_mul, mul_eq_zero,
      or_iff_right FieldElement.two_ne_zero] at flat
    exact (ofGroup_onCurve (.some x y h)).y_ne_zero flat

/-- There are as many points as scalars. -/
theorem card_eq : Nat.card (curve 7).Point = groupOrder.value.toNat := by
  obtain ⟨G, form⟩ := onCurve_iff_exists.mp generator_onCurve
  obtain ⟨cosets, total⟩ := addOrderOf_generator form ▸ addOrderOf_dvd_natCard G
  have positive : 0 < Nat.card (curve 7).Point := Nat.card_pos
  have bound := card_le
  have few : cosets < 3 := by
    have size : 2 * fieldModulus.value.toNat + 1 < groupOrder.value.toNat * 3 := by decide
    apply Nat.lt_of_mul_lt_mul_left (a := groupOrder.value.toNat)
    omega
  have single : cosets ≠ 2 := by
    rintro rfl
    have even : 2 ∣ Nat.card (curve 7).Point := ⟨_, total.trans (Nat.mul_comm _ _)⟩
    obtain ⟨A, order⟩ := exists_prime_addOrderOf_dvd_card' 2 even
    exact addOrderOf_ne_two A order
  have some : cosets ≠ 0 := by
    rintro rfl
    omega
  obtain rfl : cosets = 1 := by omega
  rw [total, Nat.mul_one]

theorem groupOrder_nsmul (A : (curve 7).Point) : groupOrder.value.toNat • A = 0 := by
  rw [← card_eq]
  exact card_nsmul_eq_zero'

theorem nsmul_mod (n : Nat) (A : (curve 7).Point) :
    (n % groupOrder.value.toNat) • A = n • A := by
  calc (n % groupOrder.value.toNat) • A
      = (n % groupOrder.value.toNat) • A +
          (n / groupOrder.value.toNat) • groupOrder.value.toNat • A := by
        rw [groupOrder_nsmul, nsmul_zero, add_zero]
    _ = (n % groupOrder.value.toNat + groupOrder.value.toNat * (n / groupOrder.value.toNat)) • A :=
        by rw [add_nsmul, mul_nsmul]
    _ = n • A := by rw [Nat.mod_add_div]

theorem nsmul_eq_zero_iff (n : Nat) (A : (curve 7).Point) :
    n • A = 0 ↔ groupOrder.value.toNat ∣ n ∨ A = 0 := by
  by_cases zero : A = 0
  · rw [zero, nsmul_zero]
    exact iff_of_true rfl (Or.inr rfl)
  · have order : addOrderOf A = groupOrder.value.toNat :=
      addOrderOf_eq_prime (groupOrder_nsmul A) zero
    rw [← addOrderOf_dvd_iff_nsmul_eq_zero, order, or_iff_left zero]

end Point

end BitcoinSigning
