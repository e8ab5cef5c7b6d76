import BitcoinSigning.Proofs.Signature.DerIntegers
/-!
Which numbers are encoded as integers, and how. Leading zeros do not count: the significant
bytes alone tell whether a number fits, and its encoding has the one body that is accepted for
the number.
-/

namespace BitcoinSigning.Der

attribute [local instance (high)] instPowNat

open Bytes

variable {value der : Bytes}

theorem ofBigEndian_significant (value : Bytes) :
    ofBigEndian (significant value) = ofBigEndian value := by
  have padded := replicate_append_significant value
  calc
    ofBigEndian (significant value) = ofBigEndian (List.replicate _ 0 ++ significant value) :=
      (ofBigEndian_replicate_zero_append _ _).symm
    _ = ofBigEndian value := by rw [padded]

theorem length_significant_le_iff (value : Bytes) (width : Nat) :
    (significant value).length ≤ width ↔ ofBigEndian value < 256 ^ width := by
  rw [← ofBigEndian_significant]
  exact length_le_iff_ofBigEndian_lt (significant_ne_zero_cons value) width

theorem ofBigEndian_integerBody (value : Bytes) :
    ofBigEndian (integerBody value) = ofBigEndian value := by
  rw [← ofBigEndian_significant value]
  rcases integerBody_cases value with ⟨empty, body⟩ | ⟨first, rest, form, -, ⟨-, body⟩ | ⟨-, body⟩⟩
  · rw [empty, body]
    rfl
  · rw [form, body, ofBigEndian_zero_cons]
  · rw [form, body]

theorem length_integerBody_le (value : Bytes) :
    (integerBody value).length ≤ (significant value).length + 1 := by
  rcases integerBody_cases value with ⟨-, body⟩ | ⟨first, rest, form, -, ⟨-, body⟩ | ⟨-, body⟩⟩
  · rw [body]
    exact Nat.le_add_left 1 _
  · rw [form, body]
    exact Nat.le_refl _
  · rw [form, body]
    exact Nat.le_succ _

def integerForm (value : Bytes) : Bytes :=
  integerTag :: (integerBody value).length.toUInt8 :: integerBody value

theorem encodeInteger_of_lt (small : ofBigEndian value < 2 ^ (256 : Nat)) :
    encodeInteger value = .ok (integerForm value) := by
  have fits := (length_significant_le_iff value 32).mpr small
  rw [encodeInteger, ← significant, if_neg (Nat.not_lt.mpr fits)]
  rfl

theorem encodeInteger_of_le (large : 2 ^ (256 : Nat) ≤ ofBigEndian value) :
    encodeInteger value = .error .integerTooLarge := by
  have wide := mt (length_significant_le_iff value 32).mp (Nat.not_lt.mpr large)
  rw [encodeInteger, ← significant, if_pos (Nat.not_le.mp wide)]

theorem encodeInteger_eq_ok_iff :
    encodeInteger value = .ok der ↔
      ofBigEndian value < 2 ^ (256 : Nat) ∧ integerForm value = der := by
  rcases Nat.lt_or_ge (ofBigEndian value) (2 ^ (256 : Nat)) with small | large
  · rw [encodeInteger_of_lt small, Except.ok.injEq, and_iff_right small]
  · rw [encodeInteger_of_le large]
    exact iff_of_false nofun fun both => Nat.not_le.mpr both.1 large

theorem encodeInteger_eq_error_iff {e : DerError} :
    encodeInteger value = .error e ↔
      e = .integerTooLarge ∧ 2 ^ (256 : Nat) ≤ ofBigEndian value := by
  rcases Nat.lt_or_ge (ofBigEndian value) (2 ^ (256 : Nat)) with small | large
  · rw [encodeInteger_of_lt small]
    exact iff_of_false nofun fun both => Nat.not_le.mpr small both.2
  · rw [encodeInteger_of_le large, Except.error.injEq, and_iff_left large, eq_comm]

theorem integerBody_unique {body : Bytes} (accepted : checkInteger integerTag body = .ok ())
    (same : ofBigEndian body = ofBigEndian value) : body = integerBody value := by
  have minimal := (checkInteger_eq_ok_iff.mp accepted).2
  apply minimal.eq_of_ofBigEndian_eq (isMinimal_integerBody value)
  rw [same, ofBigEndian_integerBody]

theorem integerForm_eq_iff (value other : Bytes) :
    integerForm value = integerForm other ↔ ofBigEndian value = ofBigEndian other := by
  constructor
  · intro same
    have bodies : integerBody value = integerBody other :=
      (List.cons.inj (List.cons.inj same).2).2
    rw [← ofBigEndian_integerBody value, bodies, ofBigEndian_integerBody]
  · intro same
    have bodies : integerBody value = integerBody other := by
      apply integerBody_unique (checkInteger_integerBody value)
      rw [ofBigEndian_integerBody, same]
    rw [integerForm, integerForm, bodies]

theorem encodeInteger_congr {other : Bytes} (same : ofBigEndian value = ofBigEndian other) :
    encodeInteger value = encodeInteger other := by
  rcases Nat.lt_or_ge (ofBigEndian value) (2 ^ (256 : Nat)) with small | large
  · rw [encodeInteger_of_lt small, encodeInteger_of_lt (same ▸ small),
      (integerForm_eq_iff value other).mpr same]
  · rw [encodeInteger_of_le large, encodeInteger_of_le (same ▸ large)]

/-- Numbers of up to 256 bits are encoded, larger ones are refused. The encoding is the tag, the
length, and the only body that is accepted for the number, so it tells the number and nothing
else about the bytes. -/
theorem encodeInteger_unique :
    (∀ value, ((∃ der, encodeInteger value = .ok der) ↔ ofBigEndian value < 2 ^ (256 : Nat)) ∧
      ∀ e, encodeInteger value = .error e ↔
        e = .integerTooLarge ∧ 2 ^ (256 : Nat) ≤ ofBigEndian value) ∧
    (∀ value der, encodeInteger value = .ok der → ∃ body : Bytes,
      der = 0x02 :: body.length.toUInt8 :: body ∧ body.length ≤ 33 ∧
      checkInteger integerTag body = .ok () ∧ ofBigEndian body = ofBigEndian value ∧
      ∀ other, checkInteger integerTag other = .ok () → ofBigEndian other = ofBigEndian value →
        other = body) ∧
    (∀ value other der otherDer, encodeInteger value = .ok der →
      encodeInteger other = .ok otherDer →
        (der = otherDer ↔ ofBigEndian value = ofBigEndian other)) ∧
    ∀ count value, encodeInteger (List.replicate count 0 ++ value) = encodeInteger value := by
  refine ⟨fun value => ⟨?fits, fun e => encodeInteger_eq_error_iff⟩, ?body, ?number, ?zeros⟩
  case fits =>
    constructor
    · intro encoded
      obtain ⟨der, encoded⟩ := encoded
      exact (encodeInteger_eq_ok_iff.mp encoded).1
    · intro small
      exact ⟨integerForm value, encodeInteger_of_lt small⟩
  case body =>
    intro value der encoded
    obtain ⟨small, form⟩ := encodeInteger_eq_ok_iff.mp encoded
    have fits := (length_significant_le_iff value 32).mpr small
    have short := length_integerBody_le value
    refine ⟨integerBody value, form.symm, by omega, checkInteger_integerBody value,
      ofBigEndian_integerBody value, fun other => integerBody_unique⟩
  case number =>
    intro value other der otherDer encoded otherEncoded
    obtain ⟨-, form⟩ := encodeInteger_eq_ok_iff.mp encoded
    obtain ⟨-, otherForm⟩ := encodeInteger_eq_ok_iff.mp otherEncoded
    rw [← form, ← otherForm]
    exact integerForm_eq_iff value other
  case zeros =>
    intro count value
    exact encodeInteger_congr (ofBigEndian_replicate_zero_append count value)

def greatestForm : Bytes := [0x02, 33, 0x00] ++ List.replicate 32 0xff

theorem encodeInteger_unique_greatest :
    encodeInteger (List.replicate 32 0xff) = .ok greatestForm ∧
      encodeInteger ([0, 0] ++ List.replicate 32 0xff) = .ok greatestForm ∧
      ofBigEndian (List.replicate 32 0xff) = ofBigEndian ([0, 0] ++ List.replicate 32 0xff) ∧
      ∃ body : Bytes, greatestForm = 0x02 :: body.length.toUInt8 :: body ∧
        checkInteger integerTag (0 :: List.replicate 32 0xff) = .ok () ∧
        0 :: List.replicate 32 0xff = body := by
  obtain ⟨-, bodies, numbers, -⟩ := encodeInteger_unique
  have bare : encodeInteger (List.replicate 32 0xff) = .ok greatestForm := rfl
  have padded : encodeInteger ([0, 0] ++ List.replicate 32 0xff) = .ok greatestForm := rfl
  have same := (numbers _ _ _ _ bare padded).mp rfl
  obtain ⟨body, form, -, -, -, only⟩ := bodies _ _ bare
  have accepted : checkInteger integerTag (0 :: List.replicate 32 0xff) = .ok () := rfl
  exact ⟨bare, padded, same, body, form, accepted, only _ accepted (ofBigEndian_zero_cons _)⟩

end BitcoinSigning.Der
