import BitcoinSigning.Proofs.Limbs.BitFold
import BitcoinSigning.Proofs.Limbs.CarriedSums
import Mathlib.Logic.ExistsUnique
/-!
Numbers in four words stand for the natural numbers below `2 ^ 256`, each for one of them, and
all that is computed with them is what the natural numbers give: sums and differences with
their carry and borrow, products in eight words, quotients by powers of two, order, digits and
bytes.
-/

namespace BitcoinSigning

attribute [local instance (high)] instPowNat

/-! Products, row by row. -/

namespace Words

variable {a b out : List UInt64}

/-- The product of one word of a number and the other number is added from its place on, and
what is carried out of it becomes the next word. -/
def mulRow? (a b out : List UInt64) (i : Nat) : Option (List UInt64) := do
  let row ← addProduct? (← a[i]?) b i out
  put? row.words (i + 4) (← row.carry.toWord?)

def mul? (a b : List UInt64) : Option (List UInt64) :=
  (List.range 4).foldlM (mulRow? a b) (List.replicate 8 0)

theorem exists_mulRow? {i : Nat} (inside : i < 4) (fourA : a.length = 4) (fourB : b.length = 4)
    (eight : out.length = 8) (sofar : toNat (out.take (i + 4)) = toNat (a.take i) * toNat b) :
    ∃ later, mulRow? a b out i = some later ∧ later.length = 8 ∧
      toNat (later.take (i + 1 + 4)) = toNat (a.take (i + 1)) * toNat b := by
  have word : a[i]? = some a[i] := List.getElem?_eq_getElem (by omega)
  obtain ⟨row, added, done⟩ := exists_addProduct? a[i] (show i + b.length ≤ out.length by omega)
  rw [fourB] at done
  have carried := done.carry_lt (Carrying.carry_ofWords_lt out)
  obtain ⟨last, fits, last_eq⟩ := DoubleWord.exists_toWord? carried
  have length : row.words.length = 8 := done.length.trans eight
  have within : i + 4 < row.words.length := by omega
  refine ⟨row.words.set (i + 4) last, ?_, List.length_set.trans length, ?_⟩
  · rw [mulRow?, word]
    simp only [Option.bind_eq_bind, Option.bind_some, added, fits, put?, if_pos within]
  · rw [Nat.add_right_comm, toNat_take_set within, last_eq, done.number, sofar,
      toNat_take_succ word, Nat.add_mul, Nat.mul_assoc]

theorem exists_mul? (fourA : a.length = 4) (fourB : b.length = 4) :
    ∃ out, mul? a b = some out ∧ out.length = 8 ∧ toNat out = toNat a * toNat b := by
  have first : (List.replicate 8 (0 : UInt64)).length = 8 ∧
      toNat ((List.replicate 8 0).take (0 + 4)) = toNat (a.take 0) * toNat b := by
    refine ⟨List.length_replicate, ?_⟩
    rw [List.take_replicate, toNat_replicate_zero]
    exact (Nat.zero_mul _).symm
  obtain ⟨out, rows, eight, total⟩ := exists_foldlM_range (motive := fun i (out : List UInt64) =>
    out.length = 8 ∧ toNat (out.take (i + 4)) = toNat (a.take i) * toNat b) first
    fun i inside out kept => exists_mulRow? inside fourA fourB kept.1 kept.2
  refine ⟨out, rows, eight, ?_⟩
  rwa [List.take_of_length_le (by omega), List.take_of_length_le (by omega)] at total

end Words

/-! Shifts. -/

namespace Word

/-- A word takes in the bits that the next one loses, and loses its own. -/
theorem toNat_shifted (low high : UInt64) {shift : Nat} (positive : 0 < shift)
    (small : shift < 64) :
    2 ^ shift * (low >>> shift.toUInt64 ||| high <<< (64 - shift.toUInt64)).toNat +
        low.toNat % 2 ^ shift =
      low.toNat + 2 ^ (64 : Nat) * (high.toNat % 2 ^ shift) := by
  have up : (64 - shift.toUInt64).toNat % 64 = 64 - shift := by
    rw [UInt64.toNat_sub, Nat.toUInt64, UInt64.toNat_ofNat']
    change (2 ^ 64 - shift % 2 ^ 64 + 64) % 2 ^ 64 % 64 = _
    omega
  have parts : 2 ^ 64 = 2 ^ (64 - shift) * 2 ^ shift := by
    rw [← Nat.pow_add]
    congr 1
    omega
  have below : low.toNat / 2 ^ shift < 2 ^ (64 - shift) := by
    rw [Nat.div_lt_iff_lt_mul (Nat.two_pow_pos shift), ← parts]
    exact low.toNat_lt
  have joined : (low >>> shift.toUInt64 ||| high <<< (64 - shift.toUInt64)).toNat =
      low.toNat / 2 ^ shift + 2 ^ (64 - shift) * (high.toNat % 2 ^ shift) := by
    rw [UInt64.toNat_or, toNat_shiftRight low small, UInt64.toNat_shiftLeft, up, Nat.shiftLeft_eq,
      parts, Nat.mul_comm high.toNat, Nat.mul_mod_mul_left, Nat.or_comm,
      ← Nat.two_pow_add_eq_or_of_lt below, Nat.add_comm]
  have whole := Nat.div_add_mod low.toNat (2 ^ shift)
  rw [joined, Nat.mul_add, ← Nat.mul_assoc, Nat.mul_comm _ (2 ^ (64 - shift)), ← parts]
  omega

end Word

namespace Nat256

theorem exists_toNat_eq {number : Nat} (fits : number < 2 ^ (256 : Nat)) :
    ∃ a : Nat256, a.toNat = number := by
  refine ⟨ofBytes ⟨Bytes.bigEndian 32 number, Bytes.length_bigEndian 32 number⟩, ?_⟩
  rw [toNat_ofBytes, Bytes.ofBigEndian_eq_ofLittleEndian_reverse]
  change Bytes.ofLittleEndian (Bytes.littleEndian 32 number).reverse.reverse = number
  rw [List.reverse_reverse, Bytes.ofLittleEndian_littleEndian]
  exact Nat.mod_eq_of_lt fits

theorem add_eq (a b : Nat256) :
    (a.add b).1.toNat = (a.toNat + b.toNat) % 2 ^ (256 : Nat) ∧
      ((a.add b).2 = true ↔ 2 ^ (256 : Nat) ≤ a.toNat + b.toNat) := by
  have sum := a.toNat_add b
  have bound := (a.add b).1.toNat_lt
  cases carry : (a.add b).2 <;> rw [carry] at sum <;>
    simp only [Bool.toNat_true, Bool.toNat_false, Bool.false_eq_true, false_iff, true_iff] at * <;>
      omega

theorem sub_eq (a b : Nat256) :
    ((a.sub b).1.toNat : Int) = ((a.toNat : Int) - b.toNat) % (2 ^ (256 : Nat) : Nat) ∧
      ((a.sub b).2 = true ↔ a.toNat < b.toNat) := by
  have difference := a.toNat_sub b
  have bound := (a.sub b).1.toNat_lt
  cases borrow : (a.sub b).2 <;> rw [borrow] at difference <;>
    simp only [Bool.toNat_true, Bool.toNat_false, Bool.false_eq_true, false_iff, true_iff] at * <;>
      omega

theorem mul?_words (a b : Nat256) : Words.mul? a.words b.words = some (a.mul b).words := by
  obtain ⟨out, product, eight, total⟩ := Words.exists_mul? (show a.words.length = 4 from rfl)
    (show b.words.length = 4 from rfl)
  rw [product]
  congr 1
  apply Words.toNat_inj
  · exact eight
  · rw [total, toNat_words, toNat_words, Nat512.toNat_words, toNat_mul]

theorem toNat_shiftRight (a : Nat256) {shift : Nat} (small : shift < 64) :
    (a.shiftRight shift.toUInt64).toNat = a.toNat / 2 ^ shift := by
  rcases Nat.eq_zero_or_pos shift with rfl | positive
  · rw [Nat.pow_zero, Nat.div_one]
    rfl
  have shifts : shift.toUInt64 ≠ 0 := by
    rw [ne_eq, ← UInt64.toNat_inj, Nat.toUInt64, UInt64.toNat_ofNat', UInt64.toNat_zero]
    omega
  have e0 := Word.toNat_shifted a.w0 a.w1 positive small
  have e1 := Word.toNat_shifted a.w1 a.w2 positive small
  have e2 := Word.toNat_shifted a.w2 a.w3 positive small
  have e3 := Nat.div_add_mod a.w3.toNat (2 ^ shift)
  rw [← Word.toNat_shiftRight a.w3 small] at e3
  have lost : a.w0.toNat % 2 ^ shift < 2 ^ shift := Nat.mod_lt _ (Nat.two_pow_pos shift)
  have whole : a.toNat =
      2 ^ shift * (a.shiftRight shift.toUInt64).toNat + a.w0.toNat % 2 ^ shift := by
    simp only [shiftRight, if_neg shifts, toNat, Nat.mul_add, Nat.mul_left_comm (2 ^ shift)]
    omega
  rw [whole, Nat.mul_add_div (Nat.two_pow_pos shift), Nat.div_eq_of_lt lost, Nat.add_zero]

/-- Numbers in words are the natural numbers below `2 ^ 256`. Sums, differences, products in
eight words, quotients by powers of two below `2 ^ 64`, comparisons, digits and bytes are those
of the natural numbers, and no step of a product needs more than 128 bits. -/
theorem operations_exact :
    (∀ number < 2 ^ (256 : Nat), ∃! a : Nat256, a.toNat = number) ∧
    (∀ a b : Nat256,
      ((a.add b).1.toNat = (a.toNat + b.toNat) % 2 ^ (256 : Nat) ∧
        ((a.add b).2 = true ↔ 2 ^ (256 : Nat) ≤ a.toNat + b.toNat)) ∧
      (((a.sub b).1.toNat : Int) = ((a.toNat : Int) - b.toNat) % (2 ^ (256 : Nat) : Nat) ∧
        ((a.sub b).2 = true ↔ a.toNat < b.toNat)) ∧
      (Words.mul? a.words b.words = some (a.mul b).words ∧
        Words.toNat (a.mul b).words = a.toNat * b.toNat) ∧
      a.cmp b = compare a.toNat b.toNat) ∧
    (∀ a : Nat256,
      (∀ shift < 64, (a.shiftRight shift.toUInt64).toNat = a.toNat / 2 ^ shift) ∧
      (∀ i < 256, a.bit i = a.toNat.testBit i) ∧
      ofBytes a.toBytes = a ∧ Bytes.ofBigEndian a.toBytes.bytes = a.toNat) ∧
    (∀ bytes : Bytes32, (ofBytes bytes).toBytes = bytes ∧
      (ofBytes bytes).toNat = Bytes.ofBigEndian bytes.bytes) := by
  refine ⟨fun number fits => ?_, fun a b => ⟨add_eq a b, sub_eq a b, ⟨mul?_words a b, ?_⟩,
    cmp_eq_compare_toNat a b⟩, fun a => ⟨fun shift small => toNat_shiftRight a small,
      fun i inside => ?_, ofBytes_toBytes a, ofBigEndian_toBytes a⟩,
    fun bytes => ⟨toBytes_ofBytes bytes, toNat_ofBytes bytes⟩⟩
  · obtain ⟨a, same⟩ := exists_toNat_eq fits
    exact ⟨a, same, fun b same' => toNat_inj.mp (same'.trans same.symm)⟩
  · rw [Nat512.toNat_words, toNat_mul]
  · rw [bit_eq a i inside, Nat.testBit_eq_decide_div_mod_eq]

def greatest : Nat256 :=
  ⟨0xffffffffffffffff, 0xffffffffffffffff, 0xffffffffffffffff, 0xffffffffffffffff⟩

theorem operations_exact_greatest :
    (∃! a : Nat256, a.toNat = 2 ^ (256 : Nat) - 1) ∧
    (greatest.shiftRight (63 : Nat).toUInt64).toNat = greatest.toNat / 2 ^ (63 : Nat) ∧
    greatest.bit 255 = greatest.toNat.testBit 255 := by
  obtain ⟨numbers, -, alone, -⟩ := operations_exact
  have found := alone greatest
  exact ⟨numbers _ (by decide), found.1 63 (by decide), found.2.1 255 (by decide)⟩

end Nat256

namespace Nat512

def greatest : Nat512 :=
  ⟨0xffffffffffffffff, 0xffffffffffffffff, 0xffffffffffffffff, 0xffffffffffffffff,
    0xffffffffffffffff, 0xffffffffffffffff, 0xffffffffffffffff, 0xffffffffffffffff⟩

end Nat512

end BitcoinSigning
