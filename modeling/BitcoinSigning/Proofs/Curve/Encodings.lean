import BitcoinSigning.Proofs.Curve.EvenLift
/-!
The bytes that name a point. Of each length there is one form, and in each form a point of
the curve is written in one way: what decodes to a point is what the point is encoded as.
-/

namespace BitcoinSigning

namespace Bytes32

theorem eq_cons_slice {bytes : Bytes} (length : bytes.length = 33)
    (fits : 1 + 32 ≤ bytes.length) : bytes = bytes.headD 0 :: (slice bytes 1 fits).bytes := by
  cases bytes with
  | nil => cases length
  | cons first rest =>
    change first :: rest = first :: rest.take 32
    rw [List.take_of_length_le (Nat.le_of_succ_le_succ (Nat.le_of_eq length))]

theorem eq_cons_slice_append_slice {bytes : Bytes} (length : bytes.length = 65)
    (fits : 1 + 32 ≤ bytes.length) (fits' : 33 + 32 ≤ bytes.length) :
    bytes = bytes.headD 0 :: ((slice bytes 1 fits).bytes ++ (slice bytes 33 fits').bytes) := by
  cases bytes with
  | nil => cases length
  | cons first rest =>
    change first :: rest = first :: (rest.take 32 ++ (rest.drop 32).take 32)
    rw [List.length_cons] at length
    have whole : (rest.drop 32).take 32 = rest.drop 32 :=
      List.take_of_length_le (by rw [List.length_drop]; omega)
    rw [whole, List.take_append_drop]

end Bytes32

namespace Point

open FieldElement

variable {x y : FieldElement} {p q : Point} {bytes bytes' : Bytes}

/-! What decodes to a point. -/

theorem liftX_eq_ok_iff_even {xBytes : Bytes32} : liftX xBytes = .ok p ↔
    ∃ x y, p = affine x y ∧ p.OnCurve ∧ xBytes = x.toBytes ∧ y.isOdd = false := by
  constructor
  · intro lifted
    obtain ⟨x, root, read, -, rfl⟩ := liftX_eq_ok_iff.mp lifted
    exact ⟨x, evenOf root, rfl, liftX_onCurve lifted, Residue.ofBytes?_eq_some_iff.mp read,
      isOdd_evenOf root⟩
  · rintro ⟨x, y, rfl, on, rfl, even⟩
    rw [liftX_toBytes on, evenOf, even]
    rfl

theorem decode_xOnly (on : (affine x y).OnCurve) :
    decode (encodeCoordinates x y .xOnly) = .ok (affine x (evenOf y)) := by
  have length : (encodeCoordinates x y .xOnly).length = 32 := x.toBytes.length_eq
  rw [decode, dif_neg (by omega), dif_neg (by omega), dif_pos length]
  exact liftX_toBytes on

theorem exists_of_decodeUncompressed {xBytes yBytes : Bytes32}
    (decoded : decodeUncompressed xBytes yBytes = .ok p) :
    ∃ x y, p = affine x y ∧ xBytes = x.toBytes ∧ yBytes = y.toBytes := by
  unfold decodeUncompressed at decoded
  split at decoded
  · rename_i x y readX readY
    unfold ofCoordinates at decoded
    split at decoded
    · cases decoded
      exact ⟨x, y, rfl, Residue.ofBytes?_eq_some_iff.mp readX,
        Residue.ofBytes?_eq_some_iff.mp readY⟩
    · cases decoded
  · cases decoded

theorem exists_of_decodeCompressed {marker : UInt8} {xBytes : Bytes32}
    (decoded : decodeCompressed marker xBytes = .ok p) :
    ∃ x y, p = affine x y ∧ xBytes = x.toBytes ∧
      marker = if y.isOdd then oddMarker else evenMarker := by
  unfold decodeCompressed at decoded
  split at decoded
  · rename_i isEven
    obtain ⟨x, y, form, -, first, even⟩ := liftX_eq_ok_iff_even.mp decoded
    exact ⟨x, y, form, first, by rw [even]; exact isEven⟩
  split at decoded
  · rename_i isOdd
    cases lifted : liftX xBytes with
    | error e =>
      rw [lifted] at decoded
      cases decoded
    | ok q =>
      rw [lifted] at decoded
      cases decoded
      obtain ⟨x, y, rfl, on, first, even⟩ := liftX_eq_ok_iff_even.mp lifted
      refine ⟨x, -y, rfl, first, ?_⟩
      rw [isOdd_neg on.y_ne_zero, even]
      exact isOdd
  · cases decoded

def Format.size : Format → Nat
  | uncompressed => 65
  | compressed => 33
  | xOnly => 32

theorem Format.size_inj {format format' : Format} (same : format.size = format'.size) :
    format = format' := by
  cases format <;> cases format' <;> first | rfl | cases same

theorem length_encodeCoordinates (x y : FieldElement) (format : Format) :
    (encodeCoordinates x y format).length = format.size := by
  cases format with
  | uncompressed =>
    rw [encodeCoordinates, List.length_cons, List.length_append, x.toBytes.length_eq,
      y.toBytes.length_eq]
    rfl
  | compressed =>
    rw [encodeCoordinates, List.length_cons, x.toBytes.length_eq]
    rfl
  | xOnly => exact x.toBytes.length_eq

theorem decode_eq_ok_iff : decode bytes = .ok p ↔ ∃ x y format, p = affine x y ∧ p.OnCurve ∧
    (format = .xOnly → y.isOdd = false) ∧ bytes = encodeCoordinates x y format := by
  constructor
  · intro decoded
    have on := decode_onCurve decoded
    unfold decode at decoded
    split at decoded
    · rename_i wide
      simp only at decoded
      split at decoded
      · rename_i marker
        obtain ⟨x, y, form, first, second⟩ := exists_of_decodeUncompressed decoded
        refine ⟨x, y, .uncompressed, form, on, fun short => absurd short (by decide), ?_⟩
        rw [Bytes32.eq_cons_slice_append_slice wide (by omega) (by omega), first, second, marker]
        rfl
      · cases decoded
    split at decoded
    · rename_i marked
      obtain ⟨x, y, form, first, marker⟩ := exists_of_decodeCompressed decoded
      refine ⟨x, y, .compressed, form, on, fun short => absurd short (by decide), ?_⟩
      rw [Bytes32.eq_cons_slice marked (by omega), first, marker]
      rfl
    split at decoded
    · obtain ⟨x, y, form, -, whole, even⟩ := liftX_eq_ok_iff_even.mp decoded
      exact ⟨x, y, .xOnly, form, on, fun _ => even, congrArg Bytes32.bytes whole⟩
    · cases decoded
  · rintro ⟨x, y, format, rfl, on, even, rfl⟩
    cases format with
    | uncompressed => exact decode_uncompressed on
    | compressed => exact decode_compressed on
    | xOnly =>
      rw [decode_xOnly on, evenOf, even rfl]
      rfl

theorem eq_of_decode (decoded : decode bytes = .ok p) (decoded' : decode bytes' = .ok p)
    (length : bytes.length = bytes'.length) : bytes = bytes' := by
  obtain ⟨x, y, format, form, -, -, rfl⟩ := decode_eq_ok_iff.mp decoded
  obtain ⟨x', y', format', form', -, -, rfl⟩ := decode_eq_ok_iff.mp decoded'
  obtain ⟨rfl, rfl⟩ := affine.inj (form.symm.trans form')
  rw [length_encodeCoordinates, length_encodeCoordinates] at length
  rw [Format.size_inj length]

theorem evenOf_eq_or_neg (x y : FieldElement) :
    affine x (evenOf y) = affine x y ∨ affine x (evenOf y) = (affine x y).neg := by
  unfold evenOf
  cases y.isOdd with
  | false => exact Or.inl rfl
  | true => exact Or.inr rfl

theorem onCurve_iff_equation : (affine x y).OnCurve ↔ y ^ 2 = x ^ 3 + 7 :=
  ⟨fun (.affine equation) => equation, .affine⟩

theorem exists_liftX_iff {xBytes : Bytes32} : (∃ p, liftX xBytes = .ok p) ↔
    ∃ x y : FieldElement, Bytes.ofBigEndian xBytes.bytes = x.toNat ∧ (affine x y).OnCurve := by
  constructor
  · rintro ⟨p, lifted⟩
    obtain ⟨x, y, rfl, on, rfl, -⟩ := liftX_eq_ok_iff_even.mp lifted
    exact ⟨x, y, Nat256.ofBigEndian_toBytes x.value, on⟩
  · rintro ⟨x, y, spelled, on⟩
    have read := Residue.ofBytes?_eq_some_iff_toNat.mpr spelled.symm
    rw [Residue.ofBytes?_eq_some_iff.mp read]
    exact ⟨_, liftX_toBytes on⟩

/-- Bytes decode to a point exactly if it is on the curve and they are its encoding of
their length, and only an even point has one of 32 bytes. -/
theorem decode_eq_ok_iff_encode_eq_ok :
    (∀ bytes p, decode bytes = .ok p ↔ ∃ x y, p = affine x y ∧ y ^ 2 = x ^ 3 + 7 ∧
      (bytes.length = 65 ∧ p.encode .uncompressed = .ok bytes ∨
        bytes.length = 33 ∧ p.encode .compressed = .ok bytes ∨
        bytes.length = 32 ∧ p.hasEvenY = true ∧ p.encode .xOnly = .ok bytes)) ∧
    (∀ x y : FieldElement, y ^ 2 = x ^ 3 + 7 →
      (∀ format, format ≠ .xOnly → ∃ bytes, (affine x y).encode format = .ok bytes ∧
        decode bytes = .ok (affine x y)) ∧
      (∃ bytes q, (affine x y).encode .xOnly = .ok bytes ∧ decode bytes = .ok q ∧
        (q = affine x y ∨ q = (affine x y).neg) ∧ q.hasEvenY = true) ∧
      (affine x y).neg.hasEvenY = !(affine x y).hasEvenY) ∧
    (∀ bytes bytes' p, bytes.length = bytes'.length → decode bytes = .ok p →
      decode bytes' = .ok p → bytes = bytes') ∧
    (∀ xBytes : Bytes32, (∃ p, liftX xBytes = .ok p) ↔ ∃ x y : FieldElement,
      Bytes.ofBigEndian xBytes.bytes = x.toNat ∧ y ^ 2 = x ^ 3 + 7) := by
  refine ⟨fun bytes p => ?_, fun x y equation => ⟨fun format full => ?_, ?_, ?_⟩,
    fun bytes bytes' p length decoded decoded' => eq_of_decode decoded decoded' length,
    fun xBytes => ?_⟩
  · rw [decode_eq_ok_iff]
    constructor
    · rintro ⟨x, y, format, rfl, on, even, rfl⟩
      refine ⟨x, y, rfl, onCurve_iff_equation.mp on, ?_⟩
      rw [length_encodeCoordinates]
      cases format with
      | uncompressed => exact Or.inl ⟨rfl, rfl⟩
      | compressed => exact Or.inr (Or.inl ⟨rfl, rfl⟩)
      | xOnly => exact Or.inr (Or.inr ⟨rfl, by rw [hasEvenY, even rfl]; rfl, rfl⟩)
    · rintro ⟨x, y, rfl, equation, ⟨-, encoded⟩ | ⟨-, encoded⟩ | ⟨-, even, encoded⟩⟩
      · exact ⟨x, y, .uncompressed, rfl, .affine equation, fun short => absurd short (by decide),
          (Except.ok.inj encoded).symm⟩
      · exact ⟨x, y, .compressed, rfl, .affine equation, fun short => absurd short (by decide),
          (Except.ok.inj encoded).symm⟩
      · rw [hasEvenY, Bool.not_eq_true'] at even
        exact ⟨x, y, .xOnly, rfl, .affine equation, fun _ => even, (Except.ok.inj encoded).symm⟩
  · refine ⟨_, rfl, decode_eq_ok_iff.mpr ⟨x, y, format, rfl, .affine equation, ?_, rfl⟩⟩
    exact fun short => absurd short full
  · refine ⟨_, _, rfl, decode_xOnly (.affine equation), evenOf_eq_or_neg x y, ?_⟩
    rw [hasEvenY, isOdd_evenOf]
    rfl
  · exact OnCurve.hasEvenY_neg (.affine equation)
  · simp only [exists_liftX_iff, onCurve_iff_equation]

theorem decode_eq_ok_iff_encode_eq_ok_generator :
    (∃ bytes, generator.encode .compressed = .ok bytes ∧ decode bytes = .ok generator) ∧
    (∃ bytes q, generator.neg.encode .xOnly = .ok bytes ∧ decode bytes = .ok q ∧
      (q = generator.neg ∨ q = generator.neg.neg) ∧ q.hasEvenY = true) := by
  have equation := onCurve_iff_equation.mp generator_onCurve
  have opposite := onCurve_iff_equation.mp generator_onCurve.neg
  obtain ⟨-, roundTrips, -⟩ := decode_eq_ok_iff_encode_eq_ok
  exact ⟨(roundTrips _ _ equation).1 .compressed (by decide), (roundTrips _ _ opposite).2.1⟩

end Point

end BitcoinSigning
