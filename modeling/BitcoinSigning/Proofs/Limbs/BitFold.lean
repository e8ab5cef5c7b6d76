import BitcoinSigning.Limbs.Bits
import Mathlib.Algebra.Group.Nat.Defs
/-!
The binary digits of a 256-bit number, and what a fold over them computes. A
fold that starts from the top digit sees the number grow from zero, doubled and
increased by one digit at a time, so anything that holds of zero and survives
these steps holds of the number at the end.
-/

namespace BitcoinSigning

namespace Word

theorem toNat_toUInt64_mod {shift : Nat} (small : shift < 64) :
    shift.toUInt64.toNat % 64 = shift := by
  rw [Nat.toUInt64, UInt64.toNat_ofNat']
  omega

theorem toNat_shiftRight (word : UInt64) {shift : Nat} (small : shift < 64) :
    (word >>> shift.toUInt64).toNat = word.toNat / 2 ^ shift := by
  rw [UInt64.toNat_shiftRight, toNat_toUInt64_mod small, Nat.shiftRight_eq_div_pow]

theorem toNat_testBit (word : UInt64) (i : Nat) (small : i < 64) :
    ((word >>> i.toUInt64) &&& 1 == 1) = decide (word.toNat / 2 ^ i % 2 = 1) := by
  have digit : ((word >>> i.toUInt64) &&& 1).toNat = word.toNat / 2 ^ i % 2 := by
    rw [UInt64.toNat_and, toNat_shiftRight word small]
    exact Nat.and_one_is_mod _
  rw [Bool.eq_iff_iff, beq_iff_eq, decide_eq_true_eq, ← UInt64.toNat_inj, digit]
  rfl

end Word

namespace Nat256

theorem toNat_word (a : Nat256) (place : Nat) (inside : place < 4) :
    (a.word place).toNat = a.toNat / 2 ^ (64 * place) % 2 ^ 64 := by
  have h0 := a.w0.toNat_lt
  have h1 := a.w1.toNat_lt
  have h2 := a.w2.toNat_lt
  have h3 := a.w3.toNat_lt
  match place, inside with
  | 0, _ => simp only [word, toNat]; omega
  | 1, _ => simp only [word, toNat]; omega
  | 2, _ => simp only [word, toNat]; omega
  | 3, _ => simp only [word, toNat]; omega

private theorem digit_of_cut (number place offset : Nat) (small : offset < 64) :
    number / 2 ^ (64 * place) % 2 ^ 64 / 2 ^ offset % 2 =
      number / 2 ^ (64 * place + offset) % 2 := by
  have pow : 2 ^ 64 = 2 ^ offset * 2 ^ (64 - offset) := by
    rw [← Nat.pow_add]
    congr 1
    omega
  have even : 2 ∣ 2 ^ (64 - offset) := Nat.dvd_of_pow_dvd (by omega : 1 ≤ 64 - offset) (by simp)
  rw [pow, Nat.mod_mul_right_div_self, Nat.mod_mod_of_dvd _ even, Nat.div_div_eq_div_mul,
    ← Nat.pow_add]

theorem bit_eq (a : Nat256) (i : Nat) (inside : i < 256) :
    a.bit i = decide (a.toNat / 2 ^ i % 2 = 1) := by
  have small : i % 64 < 64 := Nat.mod_lt i (by decide)
  rw [bit, Word.toNat_testBit _ _ small, toNat_word a (i / 64) (by omega),
    digit_of_cut _ _ _ small, Nat.div_add_mod]

theorem toNat_bit (a : Nat256) (i : Nat) (inside : i < 256) :
    (a.bit i).toNat = a.toNat / 2 ^ i % 2 := by
  have small : a.toNat / 2 ^ i % 2 < 2 := Nat.mod_lt _ (by decide)
  rw [bit_eq a i inside]
  by_cases one : a.toNat / 2 ^ i % 2 = 1
  · rw [decide_eq_true one, one, Bool.toNat_true]
  · rw [decide_eq_false one, Bool.toNat_false]
    omega

theorem isOdd_iff (a : Nat256) : a.isOdd = true ↔ a.toNat % 2 = 1 := by
  have lowest := Word.toNat_testBit a.w0 0 (by decide)
  rw [Nat.pow_zero, Nat.div_one] at lowest
  have digit : a.isOdd = decide (a.w0.toNat % 2 = 1) := by
    have unshifted : a.w0 >>> Nat.toUInt64 0 = a.w0 := UInt64.shiftRight_zero
    rw [← lowest, unshifted]
    rfl
  rw [digit, decide_eq_true_eq]
  simp only [toNat]
  omega

section Image

variable {α β : Type} {next : α → Bool → α} (image : α → β) (next' : β → Bool → β)

private theorem foldLowBits_image (a : Nat256)
    (same : ∀ result bit, image (next result bit) = next' (image result) bit) (count : Nat)
    (result : α) :
    image (a.foldLowBits next count result) = a.foldLowBits next' count (image result) := by
  induction count generalizing result with
  | zero => rfl
  | succ count ih => rw [foldLowBits, foldLowBits, ih, same]

theorem foldBits_image (a : Nat256)
    (same : ∀ result bit, image (next result bit) = next' (image result) bit) (start : α) :
    image (a.foldBits next start) = a.foldBits next' (image start) :=
  foldLowBits_image image next' a same 256 start

end Image

section Fold

variable {α : Type} {motive : Nat → α → Prop} {next : α → Bool → α}

private theorem foldLowBits_induction (a : Nat256)
    (step : ∀ n result bit, motive n result → motive (2 * n + bit.toNat) (next result bit))
    (count : Nat) (inside : count ≤ 256) (result : α)
    (sofar : motive (a.toNat / 2 ^ count) result) :
    motive a.toNat (a.foldLowBits next count result) := by
  induction count generalizing result with
  | zero =>
    rw [Nat.pow_zero, Nat.div_one] at sofar
    exact sofar
  | succ count ih =>
    apply ih (by omega)
    have grown := step _ result (a.bit count) sofar
    have digits : 2 * (a.toNat / 2 ^ (count + 1)) + (a.bit count).toNat = a.toNat / 2 ^ count := by
      rw [toNat_bit a count (by omega), Nat.pow_succ, ← Nat.div_div_eq_div_mul]
      omega
    rwa [digits] at grown

/-- The number read so far doubles and takes in one digit at every step. -/
theorem foldBits_induction (a : Nat256) (start : α) (zero : motive 0 start)
    (step : ∀ n result bit, motive n result → motive (2 * n + bit.toNat) (next result bit)) :
    motive a.toNat (a.foldBits next start) := by
  apply foldLowBits_induction a step 256 (Nat.le_refl 256)
  rwa [Nat.div_eq_of_lt a.toNat_lt]

end Fold

end Nat256

end BitcoinSigning
