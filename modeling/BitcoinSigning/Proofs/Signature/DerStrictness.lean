import BitcoinSigning.Proofs.Signature.DerIndexing
/-!
The strict encodings and the signatures they stand for. A string of bytes is strictly
encoded if it has one form, which names no bytes but those it holds. Among the strings of
that form, the ones whose integers fit in 32 bytes stand for one signature and digest type
each, and the only one that is written for these.
-/

namespace BitcoinSigning.Der

attribute [local instance (high)] instPowNat

open Bytes

variable {der r s : Bytes} {sighashType : UInt8}

/-- Two integers without needless bytes, behind their lengths and the length of both, and
then the digest type. -/
structure IsStrictForm (der r s : Bytes) (sighashType : UInt8) : Prop where
  least : 9 ≤ der.length
  most : der.length ≤ 73
  form : der = [0x30, (der.length - 3).toUInt8, 0x02, r.length.toUInt8] ++ r ++
    [0x02, s.length.toUInt8] ++ s ++ [sighashType]
  r : IsMinimal r
  s : IsMinimal s

theorem layout_eq (r s : Bytes) (sighashType : UInt8) :
    layout ⟨integerTag, r, integerTag, s, sighashType⟩ =
      [0x30, (r.length + s.length + 4).toUInt8, 0x02, r.length.toUInt8] ++ r ++
        [0x02, s.length.toUInt8] ++ s ++ [sighashType] := by
  simp only [layout, compoundTag, integerTag, List.cons_append, List.nil_append,
    List.append_assoc]

theorem isStrictForm_iff : IsStrictForm der r s sighashType ↔
    strictParts der = .ok ⟨integerTag, r, integerTag, s, sighashType⟩ := by
  rw [strictParts_eq_ok_iff, split_eq_ok_iff, checkInteger_eq_ok_iff, checkInteger_eq_ok_iff,
    layout_eq]
  constructor
  · rintro ⟨least, most, form, minimalR, minimalS⟩
    have length := congrArg List.length form
    simp only [List.length_append, List.length_cons, List.length_nil] at length
    rw [show der.length - 3 = r.length + s.length + 4 by omega] at form
    exact ⟨⟨least, most, form⟩, ⟨rfl, minimalR⟩, rfl, minimalS⟩
  · rintro ⟨⟨least, most, form⟩, ⟨-, minimalR⟩, -, minimalS⟩
    have length := congrArg List.length form
    simp only [List.length_append, List.length_cons, List.length_nil] at length
    rw [show r.length + s.length + 4 = der.length - 3 by omega] at form
    exact ⟨least, most, form, minimalR, minimalS⟩

theorem exists_of_strictParts {parts : Parts} (strict : strictParts der = .ok parts) :
    ∃ r s sighashType, parts = ⟨integerTag, r, integerTag, s, sighashType⟩ ∧
      IsStrictForm der r s sighashType := by
  obtain ⟨-, checkedR, checkedS⟩ := strictParts_eq_ok_iff.mp strict
  obtain ⟨rTag, r, sTag, s, sighashType⟩ := parts
  obtain ⟨rfl, -⟩ := checkInteger_eq_ok_iff.mp checkedR
  obtain ⟨rfl, -⟩ := checkInteger_eq_ok_iff.mp checkedS
  exact ⟨r, s, sighashType, rfl, isStrictForm_iff.mpr strict⟩

theorem isStrict_iff :
    isStrict der = true ↔ ∃ r s sighashType, IsStrictForm der r s sighashType := by
  unfold isStrict
  constructor
  · intro accepted
    cases strict : strictParts der with
    | error e =>
      rw [strict] at accepted
      cases accepted
    | ok parts =>
      obtain ⟨r, s, sighashType, -, form⟩ := exists_of_strictParts strict
      exact ⟨r, s, sighashType, form⟩
  · rintro ⟨r, s, sighashType, form⟩
    rw [isStrictForm_iff.mp form]
    rfl

theorem IsStrictForm.decode_eq (strict : IsStrictForm der r s sighashType) :
    decode der = integerValue r >>= fun first => integerValue s >>= fun second =>
      .ok (⟨first, second⟩, sighashType.toUInt32) := by
  rw [decode, isStrictForm_iff.mp strict]
  rfl

/-- Only integers that are too large can keep a strict encoding from being decoded. -/
theorem IsStrictForm.decode_eq_error_iff (strict : IsStrictForm der r s sighashType)
    (e : DerError) :
    decode der = .error e ↔ e = .integerTooLarge ∧
      (2 ^ (256 : Nat) ≤ ofBigEndian r ∨ 2 ^ (256 : Nat) ≤ ofBigEndian s) := by
  rw [strict.decode_eq]
  rcases integerValue_cases strict.r with ⟨large, refused⟩ | ⟨smallR, valueR, foundR⟩
  · rw [refused]
    change Except.error _ = Except.error _ ↔ _
    rw [Except.error.injEq, and_iff_left (Or.inl large), eq_comm]
  rw [foundR]
  rcases integerValue_cases strict.s with ⟨large, refused⟩ | ⟨smallS, valueS, foundS⟩
  · rw [refused]
    change Except.error _ = Except.error _ ↔ _
    rw [Except.error.injEq, and_iff_left (Or.inr large), eq_comm]
  · rw [foundS]
    constructor
    · intro accepted
      cases accepted
    · rintro ⟨-, largeR | largeS⟩
      · exact absurd largeR (Nat.not_le.mpr smallR)
      · exact absurd largeS (Nat.not_le.mpr smallS)

theorem encode_of_decode {signature : EcdsaSignature} {sighashType : UInt32}
    (decoded : decode der = .ok (signature, sighashType)) :
    encode signature sighashType = .ok der := by
  obtain ⟨found, strict, rest⟩ := bind_eq_ok_iff.mp decoded
  obtain ⟨r, s, last, rfl, form⟩ := exists_of_strictParts strict
  obtain ⟨first, readR, rest⟩ := bind_eq_ok_iff.mp rest
  obtain ⟨second, readS, rest⟩ := bind_eq_ok_iff.mp rest
  cases rest
  have byte : last.toUInt32 ≤ 0xff := by
    rw [UInt32.le_iff_toNat_le, UInt8.toNat_toUInt32]
    exact Nat.le_of_lt_succ last.toNat_lt
  rw [encode_eq _ byte, parts]
  simp only [integerBody_of_integerValue form.r readR, integerBody_of_integerValue form.s readS,
    UInt8.toUInt8_toUInt32]
  rw [(split_eq_ok_iff.mp (strictParts_eq_ok_iff.mp strict).1).2.2]

/-- The signatures and types of one byte stand one to one for the strict encodings whose
integers are not too large. No position outside of the bytes is ever asked for. -/
theorem strict_encoding_bijective :
    (∀ signature (sighashType : UInt32), sighashType ≤ 0xff →
      ∃ der, encode signature sighashType = .ok der ∧ 9 ≤ der.length ∧ der.length ≤ 73 ∧
        decode der = .ok (signature, sighashType)) ∧
    (∀ der signature sighashType, decode der = .ok (signature, sighashType) →
      encode signature sighashType = .ok der) ∧
    (∀ der, isStrict der = true ↔ ∃ r s sighashType, IsStrictForm der r s sighashType) ∧
    (∀ der r s sighashType, IsStrictForm der r s sighashType → ∀ e, decode der = .error e ↔
      e = .integerTooLarge ∧
        (2 ^ (256 : Nat) ≤ ofBigEndian r ∨ 2 ^ (256 : Nat) ≤ ofBigEndian s)) ∧
    (∀ signature sighashType,
      Indexed.encode signature sighashType = some (encode signature sighashType)) ∧
    (∀ der, Indexed.decode der = some (decode der)) ∧
    (∀ der, Indexed.isStrict der = some (isStrict der)) := by
  refine ⟨fun signature sighashType byte => ?_, fun der _ _ => encode_of_decode,
    fun der => isStrict_iff, fun der r s sighashType strict => strict.decode_eq_error_iff,
    Indexed.encode_eq, Indexed.decode_eq, Indexed.isStrict_eq⟩
  obtain ⟨cut, -, -⟩ := strictParts_eq_ok_iff.mp (strictParts_layout signature sighashType)
  obtain ⟨least, most, -⟩ := split_eq_ok_iff.mp cut
  exact ⟨_, encode_eq signature byte, least, most, decode_layout signature byte⟩

def onesForm : Bytes := [0x30, 6, 0x02, 1, 1, 0x02, 1, 1, 0x81]

def tooLargeForm : Bytes :=
  [0x30, 38, 0x02, 33] ++ (1 :: List.replicate 32 0) ++ [0x02, 1] ++ [1] ++ [0x81]

theorem strict_encoding_bijective_one :
    (∃ der, encode ⟨Bytes32.zero, Bytes32.zero⟩ 0x81 = .ok der ∧
      decode der = .ok (⟨Bytes32.zero, Bytes32.zero⟩, 0x81)) ∧
    (∃ signature, decode onesForm = .ok (signature, 0x81) ∧ encode signature 0x81 = .ok onesForm) ∧
    IsStrictForm tooLargeForm (1 :: List.replicate 32 0) [1] 0x81 ∧
    decode tooLargeForm = .error .integerTooLarge := by
  obtain ⟨encodes, decodes, -, refuses, -⟩ := strict_encoding_bijective
  obtain ⟨der, encoded, -, -, decoded⟩ := encodes ⟨Bytes32.zero, Bytes32.zero⟩ 0x81 (by decide)
  have form : IsStrictForm tooLargeForm (1 :: List.replicate 32 0) [1] 0x81 :=
    ⟨by decide, by decide, rfl, by decide, by decide⟩
  refine ⟨⟨der, encoded, decoded⟩, ⟨_, rfl, decodes onesForm _ 0x81 rfl⟩, form, ?_⟩
  exact (refuses _ _ _ _ form _).mpr ⟨rfl, Or.inl (by decide)⟩

end BitcoinSigning.Der
