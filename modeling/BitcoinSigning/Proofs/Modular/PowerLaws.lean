import BitcoinSigning.Proofs.Modular.Canonical
/-!
Powers, inverses and square roots as arithmetic of plain numbers. A power of a residue is the
remainder of the power, for every exponent; the power by the modulus less two is the one number
that makes a product of one; and the power by a quarter of the field's modulus plus one is a root
of every number that has one.
-/

namespace BitcoinSigning

namespace Residue

variable {m : Modulus}

theorem toNat_npow (a : Residue m) (n : Nat) : (a ^ n).toNat = a.toNat ^ n % m.value.toNat := by
  have power : a ^ n = ((a.toNat ^ n : Nat) : Residue m) := by
    rw [Nat.cast_pow, natCast_toNat]
  rw [power, toNat_natCast]

theorem toNat_pow (a : Residue m) (exponent : Nat256) :
    (a.pow exponent).toNat = a.toNat ^ exponent.toNat % m.value.toNat := by
  rw [pow_eq, toNat_npow]

theorem eq_zero_iff {a : Residue m} : a = 0 ↔ a.toNat = 0 := toNat_inj.symm

theorem mul_eq_one_iff {a b : Residue m} :
    a * b = 1 ↔ a.toNat * b.toNat % m.value.toNat = 1 := by
  rw [← toNat_inj, toNat_mul]
  rfl

theorem isSquare_iff {a : Residue m} : IsSquare a ↔ ∃ y, y ^ 2 % m.value.toNat = a.toNat := by
  constructor
  · rintro ⟨b, rfl⟩
    exact ⟨b.toNat, by rw [toNat_mul, pow_two]⟩
  · rintro ⟨y, remainder⟩
    refine ⟨(y : Residue m), toNat_inj.mp ?_⟩
    rw [← remainder, ← Nat.cast_mul, toNat_natCast, pow_two]

theorem invert_eq_none_iff {a : Residue m} : a.invert = none ↔ a = 0 := by
  rw [invert, ← isZero_eq_true]
  cases a.isZero with
  | true => exact iff_of_true rfl rfl
  | false => exact iff_of_false (fun none => nomatch none) Bool.false_ne_true

theorem invert_eq_some_iff [Fact m.value.toNat.Prime] {a b : Residue m} :
    a.invert = some b ↔ a * b = 1 := by
  by_cases zero : a = 0
  · rw [invert_eq_none_iff.mpr zero, zero, zero_mul]
    exact iff_of_false (Option.some_ne_none b).symm zero_ne_one
  · rw [invert_eq zero, Option.some.injEq, mul_eq_one_iff_inv_eq₀ zero]

/-- Powers and inverses by a modulus are those of plain numbers, and the words that are stored
for them are the ones that the arithmetic on words computes from its constants. -/
structure PowersExact (arithmetic : WordArithmetic m) : Prop where
  pow : ∀ (a : Residue m) (exponent : Nat256),
    (a.pow exponent).toNat = a.toNat ^ exponent.toNat % m.value.toNat
  invert_eq_none : ∀ a : Residue m, a.invert = none ↔ a.toNat = 0
  invert_eq_some : ∀ a b : Residue m,
    a.invert = some b ↔ a.toNat * b.toNat % m.value.toNat = 1
  powWords : ∀ (a : Residue m) (exponent : Nat256),
    arithmetic.pow a.value exponent = (a.pow exponent).value
  invertWords : ∀ a : Residue m, arithmetic.invert a.value = a.invert.map value

theorem powersExact [Fact m.value.toNat.Prime] (arithmetic : WordArithmetic m) :
    PowersExact arithmetic where
  pow := toNat_pow
  invert_eq_none _ := invert_eq_none_iff.trans eq_zero_iff
  invert_eq_some _ _ := invert_eq_some_iff.trans mul_eq_one_iff
  powWords a exponent := (value_pow arithmetic a exponent).symm
  invertWords a := (map_value_invert arithmetic a).symm

end Residue

namespace FieldElement

theorem toNat_squareRootExponent :
    squareRootExponent.toNat = (fieldModulus.value.toNat + 1) / 4 := by decide

theorem squareRoot_eq_some_iff {a root : FieldElement} :
    squareRoot a = some root ↔ IsSquare a ∧ root = a.pow squareRootExponent := by
  rw [← square_pow_eq_iff, squareRoot]
  by_cases square : (a.pow squareRootExponent).square = a
  · rw [if_pos square, and_iff_right square, Option.some.injEq, eq_comm]
  · rw [if_neg square]
    exact iff_of_false (Option.some_ne_none root).symm fun both => square both.1

structure RootsExact : Prop where
  isSome : ∀ a : FieldElement,
    (squareRoot a).isSome = true ↔ ∃ y, y ^ 2 % fieldModulus.value.toNat = a.toNat
  pow_two : ∀ a root : FieldElement, squareRoot a = some root →
    root.toNat ^ 2 % fieldModulus.value.toNat = a.toNat
  eq_pow : ∀ a root : FieldElement, squareRoot a = some root →
    root.toNat = a.toNat ^ ((fieldModulus.value.toNat + 1) / 4) % fieldModulus.value.toNat
  words : ∀ a : FieldElement, squareRootWords a.value = (squareRoot a).map Residue.value

theorem rootsExact : RootsExact where
  isSome a := by
    rw [Option.isSome_iff_exists, ← Residue.isSquare_iff]
    constructor
    · rintro ⟨root, found⟩
      exact (squareRoot_eq_some_iff.mp found).1
    · intro square
      exact ⟨_, squareRoot_eq_some_iff.mpr ⟨square, rfl⟩⟩
  pow_two a root found := by
    rw [← Residue.toNat_npow, squareRoot_pow_two found]
  eq_pow a root found := by
    rw [(squareRoot_eq_some_iff.mp found).2, Residue.toNat_pow, toNat_squareRootExponent]
  words a := (map_value_squareRoot a).symm

end FieldElement

/-- Inverses, powers by all exponents and square roots by the field's modulus, and inverses and
powers by the group order, are what they are for plain numbers. -/
theorem Residue.powers_and_roots_exact :
    PowersExact FieldElement.arithmetic ∧ FieldElement.RootsExact ∧
      PowersExact Scalar.arithmetic :=
  ⟨powersExact FieldElement.arithmetic, FieldElement.rootsExact, powersExact Scalar.arithmetic⟩

end BitcoinSigning
