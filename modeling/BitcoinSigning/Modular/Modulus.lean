import BitcoinSigning.Limbs.Nat512
/-!
Moduli a little below `2 ^ 256`. For such a modulus `m` the upper half of a
product can be folded onto the lower one, because `2 ^ 256` and the small number
`2 ^ 256 - m` leave the same remainder. Folding makes a number smaller as long as
it has an upper half; after that, one conditional subtraction reduces it.
-/

namespace BitcoinSigning

attribute [local instance (high)] instPowNat

structure Modulus where
  value : Nat256
  complement : Nat256
  value_add_complement : value.toNat + complement.toNat = 2 ^ (256 : Nat)
  complement_lt_value : complement.toNat < value.toNat

namespace Modulus

theorem two_pow_255_lt (m : Modulus) : 2 ^ (255 : Nat) < m.value.toNat := by
  have sum := m.value_add_complement
  have small := m.complement_lt_value
  omega

theorem value_lt (m : Modulus) : m.value.toNat < 2 ^ (256 : Nat) := m.value.toNat_lt

/-- The lower half plus the upper half times the complement. -/
def fold (m : Modulus) (number : Nat512) : Nat512 :=
  Nat256.mulAdd number.low m.complement number.high

theorem toNat_fold (m : Modulus) (number : Nat512) :
    (m.fold number).toNat = number.low.toNat + m.complement.toNat * number.high.toNat :=
  Nat256.toNat_mulAdd number.low m.complement number.high

theorem fold_add (m : Modulus) (number : Nat512) :
    (m.fold number).toNat + m.value.toNat * number.high.toNat = number.toNat := by
  have sum := m.value_add_complement
  rw [toNat_fold, Nat512.toNat, Nat.add_assoc, ← Nat.add_mul, Nat.add_comm m.complement.toNat, sum]

theorem toNat_fold_mod (m : Modulus) (number : Nat512) :
    (m.fold number).toNat % m.value.toNat = number.toNat % m.value.toNat := by
  rw [← m.fold_add number, Nat.add_mul_mod_self_left]

theorem toNat_fold_lt (m : Modulus) (number : Nat512) (upper : ¬ number.high.isZero = true) :
    (m.fold number).toNat < number.toNat := by
  have step := m.fold_add number
  have large := m.two_pow_255_lt
  rw [Nat256.isZero_iff] at upper
  have positive : 0 < m.value.toNat * number.high.toNat := Nat.mul_pos (by omega) (by omega)
  omega

def subtractOnce (m : Modulus) (number : Nat256) : Nat256 :=
  if number.lt m.value then number else (number.sub m.value).1

theorem toNat_subtractOnce (m : Modulus) (number : Nat256) :
    (m.subtractOnce number).toNat = number.toNat % m.value.toNat := by
  have large := m.two_pow_255_lt
  have bound := number.toNat_lt
  rw [subtractOnce]
  by_cases less : number.lt m.value = true
  · rw [if_pos less, Nat.mod_eq_of_lt ((number.lt_iff m.value).mp less)]
  · rw [if_neg less]
    have notBelow := mt (number.lt_iff m.value).mpr less
    have difference := number.toNat_sub m.value
    have result := (number.sub m.value).1.toNat_lt
    have once : number.toNat % m.value.toNat = number.toNat - m.value.toNat := by
      rw [Nat.mod_eq_sub_mod (by omega), Nat.mod_eq_of_lt (by omega)]
    rw [once]
    cases wrapped : (number.sub m.value).2 <;> rw [wrapped] at difference <;>
      simp only [Bool.toNat_true, Bool.toNat_false] at difference <;> omega

/-- The remainder: folds until there is no upper half. -/
def reduce (m : Modulus) (number : Nat512) : Nat256 :=
  if number.high.isZero then m.subtractOnce number.low else m.reduce (m.fold number)
termination_by number.toNat
decreasing_by exact m.toNat_fold_lt number (by assumption)

theorem toNat_reduce (m : Modulus) (number : Nat512) :
    (m.reduce number).toNat = number.toNat % m.value.toNat := by
  fun_induction reduce m number with
  | case1 number low =>
    rw [Nat256.isZero_iff] at low
    rw [toNat_subtractOnce, Nat512.toNat, low, Nat.mul_zero, Nat.add_zero]
  | case2 number upper ih => rw [ih, toNat_fold_mod]

end Modulus

end BitcoinSigning
