/-!
Byte strings, their hexadecimal text, and the two ways in which a run of bytes
spells a natural number. Strings of exactly 32 bytes (digests, keys, field
elements) have a type of their own, so that their length is never in doubt.
-/

namespace BitcoinSigning

-- The power of `Nat` is meant, and not that of a monoid that a later module brings in.
attribute [local instance (high)] instPowNat

abbrev Bytes := List UInt8

namespace Bytes

def hexDigit (nibble : UInt8) : Char :=
  Char.ofNat (if nibble < 10 then 48 + nibble.toNat else 87 + nibble.toNat)

def toHex (bytes : Bytes) : String :=
  String.ofList (bytes.flatMap fun (byte : UInt8) => [hexDigit (byte >>> 4), hexDigit (byte &&& 15)])

def littleEndian : Nat → Nat → Bytes
  | 0, _ => []
  | width + 1, number => number.toUInt8 :: littleEndian width (number / 256)

def ofLittleEndian (bytes : Bytes) : Nat :=
  bytes.foldr (fun byte number => byte.toNat + 256 * number) 0

def bigEndian (width number : Nat) : Bytes :=
  (littleEndian width number).reverse

def ofBigEndian (bytes : Bytes) : Nat :=
  bytes.foldl (fun number byte => 256 * number + byte.toNat) 0

@[simp]
theorem length_littleEndian (width number : Nat) : (littleEndian width number).length = width := by
  induction width generalizing number with
  | zero => rfl
  | succ width ih => rw [littleEndian, List.length_cons, ih]

@[simp]
theorem length_bigEndian (width number : Nat) : (bigEndian width number).length = width := by
  rw [bigEndian, List.length_reverse, length_littleEndian]

theorem ofLittleEndian_littleEndian (width number : Nat) :
    ofLittleEndian (littleEndian width number) = number % 256 ^ width := by
  induction width generalizing number with
  | zero => rw [Nat.pow_zero, Nat.mod_one]; rfl
  | succ width ih =>
    have step : ofLittleEndian (littleEndian (width + 1) number) =
        number.toUInt8.toNat + 256 * ofLittleEndian (littleEndian width (number / 256)) := rfl
    rw [step, ih, Nat.pow_succ', Nat.mod_mul, UInt8.toNat_ofNat']

theorem ofLittleEndian_lt (bytes : Bytes) : ofLittleEndian bytes < 256 ^ bytes.length := by
  induction bytes with
  | nil => exact Nat.one_pos
  | cons byte rest ih =>
    have step : ofLittleEndian (byte :: rest) = byte.toNat + 256 * ofLittleEndian rest := rfl
    have small := byte.toNat_lt
    rw [step, List.length_cons, Nat.pow_succ']
    omega

theorem littleEndian_ofLittleEndian (bytes : Bytes) :
    littleEndian bytes.length (ofLittleEndian bytes) = bytes := by
  induction bytes with
  | nil => rfl
  | cons byte rest ih =>
    have step : ofLittleEndian (byte :: rest) = byte.toNat + 256 * ofLittleEndian rest := rfl
    have small := byte.toNat_lt
    have quotient : (byte.toNat + 256 * ofLittleEndian rest) / 256 = ofLittleEndian rest := by omega
    rw [step, List.length_cons, littleEndian, quotient, ih]
    congr 1
    apply UInt8.toNat_inj.mp
    rw [UInt8.toNat_ofNat']
    omega

theorem ofBigEndian_eq_ofLittleEndian_reverse (bytes : Bytes) :
    ofBigEndian bytes = ofLittleEndian bytes.reverse := by
  simp only [ofBigEndian, ofLittleEndian, List.foldr_reverse, Nat.add_comm]

theorem ofBigEndian_append (high low : Bytes) :
    ofBigEndian (high ++ low) = 256 ^ low.length * ofBigEndian high + ofBigEndian low := by
  rw [ofBigEndian_eq_ofLittleEndian_reverse, ofBigEndian_eq_ofLittleEndian_reverse,
    ofBigEndian_eq_ofLittleEndian_reverse, List.reverse_append, ← low.length_reverse]
  generalize high.reverse = high
  generalize low.reverse = low
  induction low with
  | nil => simp only [List.nil_append, List.length_nil, Nat.pow_zero, Nat.one_mul]; rfl
  | cons byte rest ih =>
    have step (tail : Bytes) : ofLittleEndian (byte :: tail) =
        byte.toNat + 256 * ofLittleEndian tail := rfl
    rw [List.cons_append, step, step, ih, List.length_cons, Nat.pow_succ', Nat.mul_assoc]
    omega

theorem ofBigEndian_lt (bytes : Bytes) : ofBigEndian bytes < 256 ^ bytes.length := by
  rw [ofBigEndian_eq_ofLittleEndian_reverse, ← List.length_reverse]
  exact ofLittleEndian_lt bytes.reverse

theorem ofBigEndian_inj {a b : Bytes} (sameLength : a.length = b.length)
    (same : ofBigEndian a = ofBigEndian b) : a = b := by
  rw [ofBigEndian_eq_ofLittleEndian_reverse, ofBigEndian_eq_ofLittleEndian_reverse] at same
  apply List.reverse_inj.mp
  rw [← littleEndian_ofLittleEndian a.reverse, ← littleEndian_ofLittleEndian b.reverse, same,
    List.length_reverse, List.length_reverse, sameLength]

end Bytes

structure Bytes32 where
  bytes : Bytes
  length_eq : bytes.length = 32
  deriving DecidableEq

namespace Bytes32

def ofBytes? (bytes : Bytes) : Option Bytes32 :=
  if length_eq : bytes.length = 32 then some ⟨bytes, length_eq⟩ else none

def slice (bytes : Bytes) (start : Nat) (fits : start + 32 ≤ bytes.length) : Bytes32 :=
  ⟨(bytes.drop start).take 32, by rw [List.length_take, List.length_drop]; omega⟩

def halves? (bytes : Bytes) : Option (Bytes32 × Bytes32) :=
  if wide : bytes.length = 64 then some (slice bytes 0 (by omega), slice bytes 32 (by omega))
  else none

def zero : Bytes32 := ⟨List.replicate 32 0, List.length_replicate⟩

instance : Inhabited Bytes32 := ⟨zero⟩

def toHex (value : Bytes32) : String := value.bytes.toHex

/-- The same bytes in the opposite order, as identifiers are displayed. -/
def reversed (value : Bytes32) : Bytes32 :=
  ⟨value.bytes.reverse, by rw [List.length_reverse, value.length_eq]⟩

def xor (a b : Bytes32) : Bytes32 :=
  ⟨List.zipWith (· ^^^ ·) a.bytes b.bytes,
    by rw [List.length_zipWith, a.length_eq, b.length_eq, Nat.min_self]⟩

theorem ext {a b : Bytes32} (same : a.bytes = b.bytes) : a = b := by
  cases a
  cases b
  congr

theorem ofBytes?_bytes (value : Bytes32) : ofBytes? value.bytes = some value := by
  rw [ofBytes?, dif_pos value.length_eq]

theorem reversed_reversed (value : Bytes32) : value.reversed.reversed = value :=
  ext (List.reverse_reverse value.bytes)

end Bytes32

end BitcoinSigning
