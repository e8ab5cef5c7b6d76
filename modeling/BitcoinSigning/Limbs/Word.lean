/-!
Arithmetic on 64-bit words that loses nothing: sums, differences and products
keep their carry, borrow or upper half in a second word. Each step comes with
the law that its two words hold the exact result.
-/

namespace BitcoinSigning

attribute [local instance (high)] instPowNat

structure DoubleWord where
  lo : UInt64
  hi : UInt64
  deriving DecidableEq

namespace DoubleWord

def toNat (d : DoubleWord) : Nat :=
  d.lo.toNat + 2 ^ (64 : Nat) * d.hi.toNat

end DoubleWord

namespace Word

def ofBool (flag : Bool) : UInt64 :=
  if flag then 1 else 0

theorem toNat_ofBool (flag : Bool) : (ofBool flag).toNat = flag.toNat := by
  cases flag <;> rfl

theorem toNat_ne_zero_of_le_one (word : UInt64) (small : word.toNat ≤ 1) :
    (word != 0).toNat = word.toNat := by
  by_cases zero : word = 0
  · subst zero
    rfl
  · have positive : word.toNat ≠ 0 := fun h => zero (UInt64.toNat_inj.mp h)
    simp only [bne, beq_eq_false_iff_ne.mpr zero, Bool.not_false, Bool.toNat_true]
    omega

/-- The sum of two words and a carry; the upper word is the carry out. -/
@[inline] def add (a b carry : UInt64) : DoubleWord :=
  let partSum := a + b
  let sum := partSum + carry
  ⟨sum, ofBool (partSum < a) + ofBool (sum < carry)⟩

@[inline] def sub (a b borrow : UInt64) : DoubleWord :=
  let partDiff := a - b
  ⟨partDiff - borrow, ofBool (a < b || partDiff < borrow)⟩

/-- The upper word of a product, by the schoolbook rule on halves of 32 bits. -/
@[inline] def mulHigh (a b : UInt64) : UInt64 :=
  let a0 := a &&& 0xffffffff
  let a1 := a >>> 32
  let b0 := b &&& 0xffffffff
  let b1 := b >>> 32
  let cross := a1 * b0 + (a0 * b0) >>> 32
  let crossLow := a0 * b1 + (cross &&& 0xffffffff)
  a1 * b1 + cross >>> 32 + crossLow >>> 32

/-- The word `a * b + acc + carry`, which two words always hold. -/
@[inline] def mulAdd (acc a b carry : UInt64) : DoubleWord :=
  let low := a * b
  let first := low + acc
  let second := first + carry
  ⟨second, mulHigh a b + ofBool (first < acc) + ofBool (second < carry)⟩

theorem toNat_add (a b carry : UInt64) :
    (add a b carry).toNat = a.toNat + b.toNat + carry.toNat := by
  have ha := a.toNat_lt
  have hb := b.toNat_lt
  have hc := carry.toNat_lt
  simp only [add, DoubleWord.toNat, UInt64.toNat_add, toNat_ofBool, UInt64.lt_iff_toNat_lt]
  by_cases first : (a.toNat + b.toNat) % 2 ^ 64 < a.toNat <;>
    by_cases second : ((a.toNat + b.toNat) % 2 ^ 64 + carry.toNat) % 2 ^ 64 < carry.toNat <;>
      simp only [first, second, decide_true, decide_false, Bool.toNat_true, Bool.toNat_false] <;>
        omega

theorem add_hi_le_one (a b carry : UInt64) (small : carry.toNat ≤ 1) :
    (add a b carry).hi.toNat ≤ 1 := by
  have total := toNat_add a b carry
  have ha := a.toNat_lt
  have hb := b.toNat_lt
  simp only [DoubleWord.toNat] at total
  omega

theorem toNat_sub (a b borrow : UInt64) (small : borrow.toNat ≤ 1) :
    (sub a b borrow).lo.toNat + b.toNat + borrow.toNat =
      a.toNat + 2 ^ (64 : Nat) * (sub a b borrow).hi.toNat := by
  have ha := a.toNat_lt
  have hb := b.toNat_lt
  simp only [sub, UInt64.toNat_sub, toNat_ofBool, UInt64.lt_iff_toNat_lt]
  by_cases first : a.toNat < b.toNat <;>
    by_cases second : (2 ^ 64 - b.toNat + a.toNat) % 2 ^ 64 < borrow.toNat <;>
      simp only [first, second, decide_true, decide_false, Bool.or_self, Bool.or_true,
        Bool.or_false, Bool.toNat_true, Bool.toNat_false] <;>
        omega

theorem sub_hi_le_one (a b borrow : UInt64) : (sub a b borrow).hi.toNat ≤ 1 := by
  simp only [sub, toNat_ofBool]
  exact Bool.toNat_le _

private theorem low_half (a : UInt64) : (a &&& 0xffffffff).toNat = a.toNat % 2 ^ (32 : Nat) := by
  rw [UInt64.toNat_and]
  exact Nat.and_two_pow_sub_one_eq_mod a.toNat 32

private theorem high_half (a : UInt64) : (a >>> 32).toNat = a.toNat / 2 ^ (32 : Nat) := by
  rw [UInt64.toNat_shiftRight, Nat.shiftRight_eq_div_pow]
  rfl

private theorem mul_le_of_halves {x y : Nat} (hx : x < 2 ^ (32 : Nat)) (hy : y < 2 ^ (32 : Nat)) :
    x * y ≤ (2 ^ (32 : Nat) - 1) * (2 ^ (32 : Nat) - 1) :=
  Nat.mul_le_mul (by omega) (by omega)

theorem toNat_mulHigh (a b : UInt64) :
    a.toNat * b.toNat = (a * b).toNat + 2 ^ (64 : Nat) * (mulHigh a b).toNat := by
  have ha := a.toNat_lt
  have hb := b.toNat_lt
  simp only [mulHigh, UInt64.toNat_add, UInt64.toNat_mul, low_half, high_half]
  have splitA : a.toNat = a.toNat % 2 ^ 32 + 2 ^ 32 * (a.toNat / 2 ^ 32) := by omega
  have splitB : b.toNat = b.toNat % 2 ^ 32 + 2 ^ 32 * (b.toNat / 2 ^ 32) := by omega
  have boundA : a.toNat / 2 ^ 32 < 2 ^ 32 := by omega
  have boundB : b.toNat / 2 ^ 32 < 2 ^ 32 := by omega
  have lowA : a.toNat % 2 ^ 32 < 2 ^ 32 := by omega
  have lowB : b.toNat % 2 ^ 32 < 2 ^ 32 := by omega
  generalize a.toNat % 2 ^ 32 = a0 at *
  generalize a.toNat / 2 ^ 32 = a1 at *
  generalize b.toNat % 2 ^ 32 = b0 at *
  generalize b.toNat / 2 ^ 32 = b1 at *
  have product : a.toNat * b.toNat =
      a0 * b0 + 2 ^ 32 * (a1 * b0 + a0 * b1) + 2 ^ 64 * (a1 * b1) := by
    rw [splitA, splitB]
    simp only [Nat.add_mul, Nat.mul_add, Nat.mul_assoc, Nat.mul_left_comm _ (2 ^ 32)]
    omega
  have p00 := mul_le_of_halves lowA lowB
  have p10 := mul_le_of_halves boundA lowB
  have p01 := mul_le_of_halves lowA boundB
  have p11 := mul_le_of_halves boundA boundB
  rw [product]
  generalize a0 * b0 = p at *
  generalize a1 * b0 = q at *
  generalize a0 * b1 = r at *
  generalize a1 * b1 = s at *
  omega

theorem toNat_mulAdd (acc a b carry : UInt64) :
    (mulAdd acc a b carry).toNat = acc.toNat + a.toNat * b.toNat + carry.toNat := by
  have hacc := acc.toNat_lt
  have hc := carry.toNat_lt
  have ha := a.toNat_lt
  have hb := b.toNat_lt
  have exact_product := toNat_mulHigh a b
  have product_le : a.toNat * b.toNat ≤ (2 ^ 64 - 1) * (2 ^ 64 - 1) :=
    Nat.mul_le_mul (by omega) (by omega)
  have low_lt := (a * b).toNat_lt
  simp only [mulAdd, DoubleWord.toNat, UInt64.toNat_add, toNat_ofBool, UInt64.lt_iff_toNat_lt]
  generalize (a * b).toNat = low at *
  generalize (mulHigh a b).toNat = high at *
  generalize a.toNat * b.toNat = product at *
  by_cases first : (low + acc.toNat) % 2 ^ 64 < acc.toNat <;>
    by_cases second : ((low + acc.toNat) % 2 ^ 64 + carry.toNat) % 2 ^ 64 < carry.toNat <;>
      simp only [first, second, decide_true, decide_false, Bool.toNat_true, Bool.toNat_false] <;>
        omega

end Word

end BitcoinSigning
