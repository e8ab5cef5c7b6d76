import BitcoinSigning.Proofs.Signature.DerRoundTrip
/-!
Integers without needless bytes. The first bytes of such an integer bound its value
from both sides, so the value tells how many bytes there are, and with them the bytes
themselves: no integer is encoded in two ways.
-/

namespace BitcoinSigning

attribute [local instance (high)] instPowNat

namespace Bytes

theorem ofBigEndian_cons (first : UInt8) (rest : Bytes) :
    ofBigEndian (first :: rest) = 256 ^ rest.length * first.toNat + ofBigEndian rest := by
  have single : ofBigEndian [first] = first.toNat := Nat.zero_add _
  rw [← List.singleton_append, ofBigEndian_append, single]

theorem ofBigEndian_zero_cons (rest : Bytes) : ofBigEndian (0 :: rest) = ofBigEndian rest := by
  rw [ofBigEndian_cons, UInt8.toNat_zero, Nat.mul_zero, Nat.zero_add]

theorem ofBigEndian_replicate_zero_append (count : Nat) (bytes : Bytes) :
    ofBigEndian (List.replicate count 0 ++ bytes) = ofBigEndian bytes := by
  induction count with
  | zero => rfl
  | succ count ih => rw [List.replicate_succ, List.cons_append, ofBigEndian_zero_cons, ih]

end Bytes

namespace Der

open Bytes

theorem isNegativeByte_iff (byte : UInt8) : isNegativeByte byte = true ↔ 0x80 ≤ byte := by
  obtain ⟨⟨byte⟩⟩ := byte
  revert byte
  decide +kernel

theorem isNegativeByte_eq_false_iff (byte : UInt8) : isNegativeByte byte = false ↔ byte < 0x80 := by
  rw [← Bool.not_eq_true, isNegativeByte_iff, UInt8.not_le]

/-- An integer is present and not negative, and has no zero in front of other bytes
that would not be negative without it. -/
def IsMinimal : Bytes → Prop
  | [] => False
  | [first] => first < 0x80
  | first :: second :: _ => first < 0x80 ∧ (first = 0 → 0x80 ≤ second)

instance : DecidablePred IsMinimal
  | [] => isFalse id
  | [first] => inferInstanceAs (Decidable (first < 0x80))
  | first :: second :: _ =>
    inferInstanceAs (Decidable (first < 0x80 ∧ (first = 0 → 0x80 ≤ second)))

variable {α β : Type}

theorem bind_eq_ok_iff {first : Except DerError α} {next : α → Except DerError β} {b : β} :
    (first >>= next) = .ok b ↔ ∃ a, first = .ok a ∧ next a = .ok b := by
  cases first with
  | error e =>
    constructor
    · intro failed
      cases failed
    · rintro ⟨_, found, -⟩
      cases found
  | ok a =>
    constructor
    · intro followed
      exact ⟨a, rfl, followed⟩
    · rintro ⟨_, found, followed⟩
      cases found
      exact followed

theorem unless_eq_ok_iff {refused : Prop} [Decidable refused] {e : DerError}
    {next : Except DerError α} {a : α} :
    (if refused then .error e else next) = .ok a ↔ ¬refused ∧ next = .ok a := by
  by_cases given : refused
  · rw [if_pos given]
    exact ⟨nofun, fun accepted => absurd given accepted.1⟩
  · rw [if_neg given]
    exact ⟨fun accepted => ⟨given, accepted⟩, fun accepted => accepted.2⟩

theorem checkInteger_eq_ite (tag : UInt8) (integer : Bytes) :
    checkInteger tag integer =
      if tag ≠ integerTag then .error .invalidIntegerTag else checkInteger integerTag integer := by
  by_cases tagged : tag = integerTag
  · rw [if_neg (not_not_intro tagged), tagged]
  · rw [if_pos tagged]
    exact if_pos tagged

theorem checkInteger_eq_ok_iff {tag : UInt8} {integer : Bytes} :
    checkInteger tag integer = .ok () ↔ tag = integerTag ∧ IsMinimal integer := by
  unfold checkInteger
  rw [unless_eq_ok_iff, ne_eq, Decidable.not_not]
  refine and_congr_right fun _ => ?_
  rcases integer with - | ⟨first, - | ⟨second, others⟩⟩
  · simp only [reduceCtorEq, IsMinimal]
  · rw [unless_eq_ok_iff, and_iff_left rfl, Bool.not_eq_true, isNegativeByte_eq_false_iff]
    rfl
  · rw [unless_eq_ok_iff, unless_eq_ok_iff, and_iff_left rfl, Bool.not_eq_true,
      isNegativeByte_eq_false_iff, not_and, Bool.not_eq_false, isNegativeByte_iff]
    rfl

theorem isMinimal_integerBody (value : Bytes) : IsMinimal (integerBody value) :=
  (checkInteger_eq_ok_iff.mp (checkInteger_integerBody value)).2

/-! The value of an integer and its length. -/

theorem pow_le_ofBigEndian {first : UInt8} (nonzero : first ≠ 0) (rest : Bytes) :
    256 ^ rest.length ≤ ofBigEndian (first :: rest) := by
  have positive : 1 ≤ first.toNat := by
    rw [ne_eq, ← UInt8.toNat_inj, UInt8.toNat_zero] at nonzero
    omega
  have scaled := Nat.mul_le_mul_left (256 ^ rest.length) positive
  rw [ofBigEndian_cons]
  omega

/-- Bytes without a leading zero are as many as their number needs. -/
theorem length_le_iff_ofBigEndian_lt {bytes : Bytes} (headed : ∀ rest, bytes ≠ 0 :: rest)
    (width : Nat) : bytes.length ≤ width ↔ ofBigEndian bytes < 256 ^ width := by
  constructor
  · intro fits
    have below := Bytes.ofBigEndian_lt bytes
    have most : 256 ^ bytes.length ≤ 256 ^ width := Nat.pow_le_pow_right (by decide) fits
    exact Nat.lt_of_lt_of_le below most
  · intro small
    cases bytes with
    | nil => exact Nat.zero_le width
    | cons first rest =>
      have nonzero : first ≠ 0 := fun zero => headed rest (by rw [zero])
      have least := pow_le_ofBigEndian nonzero rest
      exact (Nat.pow_lt_pow_iff_right (by decide)).mp (Nat.lt_of_le_of_lt least small)

theorem ofBigEndian_magnitude (integer : Bytes) :
    ofBigEndian (magnitude integer) = ofBigEndian integer := by
  rcases integer with - | ⟨first, - | ⟨second, others⟩⟩
  · rfl
  · rfl
  · by_cases zero : first = 0
    · rw [magnitude, if_pos zero, zero, ofBigEndian_zero_cons]
    · rw [magnitude, if_neg zero]

namespace IsMinimal

variable {integer other : Bytes}

theorem ofBigEndian_lt (minimal : IsMinimal integer) :
    ofBigEndian integer < 128 * 256 ^ (integer.length - 1) := by
  have bound {first : UInt8} (rest : Bytes) (notNegative : first < 0x80) :
      ofBigEndian (first :: rest) < 128 * 256 ^ rest.length := by
    have small : first.toNat ≤ 127 := Nat.le_of_lt_succ (UInt8.lt_iff_toNat_lt.mp notNegative)
    have scaled := Nat.mul_le_mul_left (256 ^ rest.length) small
    have low := Bytes.ofBigEndian_lt rest
    rw [ofBigEndian_cons]
    omega
  rcases integer with - | ⟨first, - | ⟨second, others⟩⟩
  · exact minimal.elim
  · exact bound [] minimal
  · exact bound (second :: others) minimal.1

theorem le_ofBigEndian (minimal : IsMinimal integer) (long : 2 ≤ integer.length) :
    128 * 256 ^ (integer.length - 2) ≤ ofBigEndian integer := by
  rcases integer with - | ⟨first, - | ⟨second, others⟩⟩
  · exact minimal.elim
  · exact absurd long (Nat.not_succ_le_self 1)
  · change 128 * 256 ^ others.length ≤ _
    by_cases zero : first = 0
    · have large : 128 ≤ second.toNat := UInt8.le_iff_toNat_le.mp (minimal.2 zero)
      have scaled := Nat.mul_le_mul_left (256 ^ others.length) large
      rw [zero, ofBigEndian_zero_cons, ofBigEndian_cons]
      omega
    · have least := pow_le_ofBigEndian zero (second :: others)
      rw [List.length_cons, Nat.pow_succ] at least
      omega

theorem length_le (minimal : IsMinimal integer) (minimal' : IsMinimal other)
    (same : ofBigEndian integer = ofBigEndian other) : integer.length ≤ other.length := by
  apply Nat.not_lt.mp
  intro longer
  have nonempty : other.length ≠ 0 := by
    rintro none
    rw [List.eq_nil_of_length_eq_zero none] at minimal'
    exact minimal'
  have below := minimal'.ofBigEndian_lt
  have above := minimal.le_ofBigEndian (by omega)
  have wider : 256 ^ (other.length - 1) ≤ 256 ^ (integer.length - 2) :=
    Nat.pow_le_pow_right (by decide) (by omega)
  omega

/-- No two integers without needless bytes have the same value. -/
theorem eq_of_ofBigEndian_eq (minimal : IsMinimal integer) (minimal' : IsMinimal other)
    (same : ofBigEndian integer = ofBigEndian other) : integer = other :=
  ofBigEndian_inj (Nat.le_antisymm (minimal.length_le minimal' same)
    (minimal'.length_le minimal same.symm)) same

theorem magnitude_cases (minimal : IsMinimal integer) :
    (magnitude integer).length = 1 ∨ ∀ rest, magnitude integer ≠ 0 :: rest := by
  rcases integer with - | ⟨first, - | ⟨second, others⟩⟩
  · exact minimal.elim
  · exact Or.inl rfl
  · by_cases zero : first = 0
    · have large : second ≠ 0 := by
        rintro rfl
        exact absurd (minimal.2 zero) (by decide)
      rw [magnitude, if_pos zero]
      exact Or.inr fun _ same => large (List.cons.inj same).1
    · rw [magnitude, if_neg zero]
      exact Or.inr fun _ same => zero (List.cons.inj same).1

theorem length_magnitude_le_iff (minimal : IsMinimal integer) :
    (magnitude integer).length ≤ 32 ↔ ofBigEndian integer < 2 ^ (256 : Nat) := by
  rw [← ofBigEndian_magnitude]
  rcases minimal.magnitude_cases with single | headed
  · have below := Bytes.ofBigEndian_lt (magnitude integer)
    rw [single] at below ⊢
    omega
  · exact length_le_iff_ofBigEndian_lt headed 32

end IsMinimal

/-! The 32 bytes of an integer. -/

theorem ofBigEndian_of_integerValue {integer : Bytes} {value : Bytes32}
    (found : integerValue integer = .ok value) :
    ofBigEndian value.bytes = ofBigEndian integer := by
  unfold integerValue at found
  split at found
  · cases found
    rw [ofBigEndian_replicate_zero_append, ofBigEndian_magnitude]
  · cases found

theorem integerBody_of_integerValue {integer : Bytes} (minimal : IsMinimal integer)
    {value : Bytes32} (found : integerValue integer = .ok value) :
    integerBody value.bytes = integer := by
  apply (isMinimal_integerBody value.bytes).eq_of_ofBigEndian_eq minimal
  rw [← ofBigEndian_of_integerValue found,
    ofBigEndian_of_integerValue (integerValue_integerBody value)]

theorem integerValue_cases {integer : Bytes} (minimal : IsMinimal integer) :
    (2 ^ (256 : Nat) ≤ ofBigEndian integer ∧ integerValue integer = .error .integerTooLarge) ∨
    (ofBigEndian integer < 2 ^ (256 : Nat) ∧ ∃ value, integerValue integer = .ok value) := by
  unfold integerValue
  by_cases fits : (magnitude integer).length ≤ 32
  · exact Or.inr ⟨minimal.length_magnitude_le_iff.mp fits, _, dif_pos fits⟩
  · have large := mt minimal.length_magnitude_le_iff.mpr fits
    exact Or.inl ⟨Nat.not_lt.mp large, dif_neg fits⟩

end Der

end BitcoinSigning
