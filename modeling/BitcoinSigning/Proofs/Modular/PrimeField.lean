import BitcoinSigning.Proofs.Modular.Certificate
import BitcoinSigning.Proofs.Modular.Ring
import Mathlib.FieldTheory.Finite.Basic
/-!
Residues by a prime are a field: Fermat's theorem makes the power by which they
are inverted an inverse. The coordinates of points and the scalars are two such
fields.
-/

namespace BitcoinSigning

namespace Residue

variable {m : Modulus}

theorem toNat_inversionExponent (m : Modulus) :
    (inversionExponent m).toNat = m.value.toNat - 2 := by
  have difference : (inversionExponent m).toNat + (Nat256.ofWord 2).toNat = _ :=
    m.value.toNat_sub (Nat256.ofWord 2)
  have large := m.two_pow_255_lt
  have below := m.value_lt
  have bound := (inversionExponent m).toNat_lt
  have wrap := Bool.toNat_le (m.value.sub (Nat256.ofWord 2)).2
  have two : (Nat256.ofWord 2).toNat = 2 := rfl
  rw [two] at difference
  omega

theorem invert_zero : (0 : Residue m).invert = none := rfl

section Prime

variable [prime : Fact m.value.toNat.Prime]

/-- Fermat's little theorem. -/
theorem pow_modulus_sub_one {a : Residue m} (nonzero : a ≠ 0) : a ^ (m.value.toNat - 1) = 1 := by
  apply toZMod_injective
  have cast : (a ^ (m.value.toNat - 1)).toZMod = a.toZMod ^ (m.value.toNat - 1) :=
    map_pow (toZModHom m) a _
  have image : a.toZMod ≠ 0 := by
    rw [← toZMod_zero]
    exact toZMod_injective.ne nonzero
  rw [cast, ZMod.pow_card_sub_one_eq_one image, toZMod_one]

theorem mul_pow_inversionExponent {a : Residue m} (nonzero : a ≠ 0) :
    a * a.pow (inversionExponent m) = 1 := by
  have large := m.two_pow_255_lt
  have exponent : m.value.toNat - 2 + 1 = m.value.toNat - 1 := by omega
  rw [pow_eq, toNat_inversionExponent, ← pow_succ', exponent, pow_modulus_sub_one nonzero]

instance : Field (Residue m) where
  inv a := a.invert.getD 0
  mul_inv_cancel a nonzero := by
    change a * a.invert.getD 0 = 1
    rw [invert, if_neg (mt a.isZero_eq_true.mp nonzero), Option.getD_some,
      mul_pow_inversionExponent nonzero]
  inv_zero := rfl
  nnqsmul := _
  nnqsmul_def _ _ := rfl
  qsmul := _
  qsmul_def _ _ := rfl

theorem invert_eq {a : Residue m} (nonzero : a ≠ 0) : a.invert = some a⁻¹ := by
  have found : a.invert = some (a.pow (inversionExponent m)) := by
    rw [invert, if_neg (mt a.isZero_eq_true.mp nonzero)]
  rw [found, eq_inv_of_mul_eq_one_right (mul_pow_inversionExponent nonzero)]

end Prime

end Residue

instance : Fact fieldModulus.value.toNat.Prime := ⟨fieldModulus_prime⟩

instance : Fact groupOrder.value.toNat.Prime := ⟨groupOrder_prime⟩

end BitcoinSigning
