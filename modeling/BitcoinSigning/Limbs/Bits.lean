import BitcoinSigning.Bytes
import BitcoinSigning.Limbs.Nat256
/-!
The bits and bytes of 256-bit numbers, both from the most significant end.
-/

namespace BitcoinSigning

attribute [local instance (high)] instPowNat

namespace Word

def toBytes (word : UInt64) : Bytes :=
  [(word >>> 56).toUInt8, (word >>> 48).toUInt8, (word >>> 40).toUInt8, (word >>> 32).toUInt8,
    (word >>> 24).toUInt8, (word >>> 16).toUInt8, (word >>> 8).toUInt8, word.toUInt8]

def ofBytes (bytes : Bytes) : UInt64 :=
  bytes.foldl (fun word byte => 256 * word + byte.toUInt64) 0

theorem ofBigEndian_toBytes (word : UInt64) : Bytes.ofBigEndian (toBytes word) = word.toNat := by
  have bound := word.toNat_lt
  simp only [toBytes, Bytes.ofBigEndian, List.foldl_cons, List.foldl_nil, UInt64.toNat_toUInt8,
    UInt64.toNat_shiftRight, UInt64.reduceToNat, Nat.shiftRight_eq_div_pow, Nat.reduceMod,
    Nat.reducePow]
  omega

private theorem toNat_foldl (bytes : Bytes) (start : UInt64) :
    (bytes.foldl (fun word byte => 256 * word + byte.toUInt64) start).toNat =
      bytes.foldl (fun number byte => 256 * number + byte.toNat) start.toNat % 2 ^ (64 : Nat) := by
  induction bytes generalizing start with
  | nil => exact (Nat.mod_eq_of_lt start.toNat_lt).symm
  | cons byte rest ih =>
    have congruent (a b : Nat) (same : a % 2 ^ 64 = b % 2 ^ 64) :
        rest.foldl (fun number byte => 256 * number + byte.toNat) a % 2 ^ 64 =
          rest.foldl (fun number byte => 256 * number + byte.toNat) b % 2 ^ 64 := by
      clear ih
      induction rest generalizing a b with
      | nil => exact same
      | cons byte rest ih =>
        apply ih
        change (256 * a + byte.toNat) % 2 ^ 64 = (256 * b + byte.toNat) % 2 ^ 64
        omega
    have factor : (256 : UInt64).toNat = 256 := rfl
    rw [List.foldl_cons, ih, List.foldl_cons]
    apply congruent
    rw [UInt64.toNat_add, UInt64.toNat_mul, UInt8.toNat_toUInt64, factor]
    omega

theorem toNat_ofBytes (bytes : Bytes) (few : bytes.length ≤ 8) :
    (ofBytes bytes).toNat = Bytes.ofBigEndian bytes := by
  have bound := Bytes.ofBigEndian_lt bytes
  have most : 256 ^ bytes.length ≤ 256 ^ 8 := Nat.pow_le_pow_right (by decide) few
  rw [ofBytes, toNat_foldl]
  exact Nat.mod_eq_of_lt (by
    change Bytes.ofBigEndian bytes < 2 ^ 64
    omega)

end Word

namespace Nat256

def toBytes (a : Nat256) : Bytes32 where
  bytes := Word.toBytes a.w3 ++ Word.toBytes a.w2 ++ Word.toBytes a.w1 ++ Word.toBytes a.w0
  length_eq := rfl

def ofBytes (value : Bytes32) : Nat256 :=
  let bytes := value.bytes
  ⟨Word.ofBytes (bytes.drop 24), Word.ofBytes ((bytes.drop 16).take 8),
    Word.ofBytes ((bytes.drop 8).take 8), Word.ofBytes (bytes.take 8)⟩

theorem ofBigEndian_toBytes (a : Nat256) : Bytes.ofBigEndian a.toBytes.bytes = a.toNat := by
  have width (word : UInt64) : (Word.toBytes word).length = 8 := rfl
  simp only [toBytes, Bytes.ofBigEndian_append, Word.ofBigEndian_toBytes, width, toNat]
  omega

theorem toNat_ofBytes (value : Bytes32) :
    (ofBytes value).toNat = Bytes.ofBigEndian value.bytes := by
  obtain ⟨bytes, length_eq⟩ := value
  have split : bytes = bytes.take 8 ++ ((bytes.drop 8).take 8 ++
      ((bytes.drop 16).take 8 ++ bytes.drop 24)) := by
    conv => lhs; rw [← List.take_append_drop 8 bytes]
    conv => lhs; rw [← List.take_append_drop 8 (bytes.drop 8), List.drop_drop]
    conv => lhs; rw [← List.take_append_drop 8 (bytes.drop (8 + 8)), List.drop_drop]
  have width0 : (bytes.drop 24).length = 8 := by rw [List.length_drop]; omega
  have width1 : ((bytes.drop 16).take 8).length = 8 := by
    rw [List.length_take, List.length_drop]; omega
  have width2 : ((bytes.drop 8).take 8).length = 8 := by
    rw [List.length_take, List.length_drop]; omega
  have width3 : (bytes.take 8).length = 8 := by rw [List.length_take]; omega
  have whole := congrArg Bytes.ofBigEndian split
  rw [Bytes.ofBigEndian_append, Bytes.ofBigEndian_append, Bytes.ofBigEndian_append,
    List.length_append, List.length_append, width0, width1, width2] at whole
  change _ = Bytes.ofBigEndian bytes
  simp only [ofBytes, toNat, Word.toNat_ofBytes, width0, width1, width2, width3, Nat.le_refl]
  omega

theorem ofBytes_toBytes (a : Nat256) : ofBytes a.toBytes = a := by
  rw [← toNat_inj, toNat_ofBytes, ofBigEndian_toBytes]

theorem toBytes_ofBytes (value : Bytes32) : (ofBytes value).toBytes = value := by
  apply Bytes32.ext
  apply Bytes.ofBigEndian_inj
  · rw [Bytes32.length_eq, Bytes32.length_eq]
  · rw [ofBigEndian_toBytes, toNat_ofBytes]

/-- The lowest `count` bits, folded from the highest of them down. -/
def foldLowBits {α : Type} (a : Nat256) (step : α → Bool → α) : Nat → α → α
  | 0, result => result
  | count + 1, result => foldLowBits a step count (step result (a.bit count))

def foldBits {α : Type} (a : Nat256) (step : α → Bool → α) (start : α) : α :=
  foldLowBits a step 256 start

end Nat256

end BitcoinSigning
