import BitcoinSigning.Key.Public
import BitcoinSigning.Proofs.Curve.Group
/-!
Points and their encodings. The modulus is three more than a multiple of four, so
one power finds the root of every square; of the two roots the parity picks one.
What is decoded is on the curve, and a point on the curve is decoded from either
of its full encodings.
-/

namespace BitcoinSigning

theorem Bytes32.slice_append (before after : Bytes) (value : Bytes32)
    (fits : before.length + 32 ≤ (before ++ (value.bytes ++ after)).length) :
    slice (before ++ (value.bytes ++ after)) before.length fits = value := by
  apply Bytes32.ext
  change ((before ++ (value.bytes ++ after)).drop before.length).take 32 = value.bytes
  rw [List.drop_left, ← value.length_eq, List.take_left]

namespace FieldElement

theorem squareRoot_pow_two {a root : FieldElement} (found : squareRoot a = some root) :
    root ^ 2 = a := by
  rw [squareRoot] at found
  split at found
  · rename_i square
    rw [← Residue.square_eq, ← Option.some.inj found]
    exact square
  · exact nomatch found

private theorem four_mul_squareRootExponent :
    2 * (squareRootExponent.toNat * 2) = fieldModulus.value.toNat - 1 + 2 := by decide

theorem squareRoot_of_pow_two (y : FieldElement) : ∃ root, squareRoot (y ^ 2) = some root := by
  have square : (Residue.pow (y ^ 2) squareRootExponent).square = y ^ 2 := by
    rw [Residue.square_eq, Residue.pow_eq, ← pow_mul, ← pow_mul, four_mul_squareRootExponent]
    by_cases zero : y = 0
    · rw [zero, zero_pow (by decide), zero_pow (by decide)]
    · rw [pow_add, Residue.pow_modulus_sub_one zero, one_mul]
  exact ⟨_, by rw [squareRoot, if_pos square]⟩

theorem isOdd_neg {y : FieldElement} (nonzero : y ≠ 0) : (-y).isOdd = !y.isOdd :=
  Residue.isOdd_neg (by decide) nonzero

def evenOf (y : FieldElement) : FieldElement := if y.isOdd then -y else y

theorem evenOf_pow_two (y : FieldElement) : evenOf y ^ 2 = y ^ 2 := by
  unfold evenOf
  cases y.isOdd with
  | false => rfl
  | true => exact neg_pow_two y

theorem evenOf_neg (y : FieldElement) : evenOf (-y) = evenOf y := by
  by_cases zero : y = 0
  · rw [zero, neg_zero]
  · rw [evenOf, evenOf, isOdd_neg zero, neg_neg]
    cases y.isOdd <;> rfl

end FieldElement

open FieldElement

namespace Point

variable {x y : FieldElement}

/-! Decoded points are on the curve. -/

theorem liftX_eq_ok_iff {bytes : Bytes32} {p : Point} :
    liftX bytes = .ok p ↔ ∃ x root, FieldElement.ofBytes? bytes = some x ∧
      squareRoot (curveCubic x) = some root ∧ p = affine x (evenOf root) := by
  -- As a constant the root would be evaluated when the branches are compared.
  obtain ⟨root?, same⟩ : ∃ f, f = FieldElement.squareRoot := ⟨_, rfl⟩
  unfold liftX evenOf
  rw [← same]
  cases FieldElement.ofBytes? bytes with
  | none => simp only [reduceCtorEq, false_and, exists_false]
  | some x =>
    simp only [Option.some.injEq]
    cases found : root? (curveCubic x) with
    | none =>
      constructor
      · intro failed
        cases failed
      · rintro ⟨_, root, rfl, found', -⟩
        cases found.symm.trans found'
    | some root =>
      constructor
      · intro lifted
        exact ⟨x, root, rfl, found, (Except.ok.inj lifted).symm⟩
      · rintro ⟨_, root', rfl, found', rfl⟩
        obtain rfl : root = root' := Option.some.inj (found.symm.trans found')
        rfl

theorem liftX_onCurve {bytes : Bytes32} {p : Point} (lifted : liftX bytes = .ok p) :
    p.OnCurve := by
  obtain ⟨x, root, -, found, rfl⟩ := liftX_eq_ok_iff.mp lifted
  have equation := squareRoot_pow_two found
  rw [curveCubic_eq, ← evenOf_pow_two] at equation
  exact .affine equation

theorem ofCoordinates_onCurve {p : Point} (checked : ofCoordinates x y = .ok p) : p.OnCurve := by
  unfold ofCoordinates at checked
  split at checked
  · rename_i equation
    rw [← Except.ok.inj checked]
    exact onCurve_affine_iff.mpr equation
  · exact nomatch checked

theorem decodeUncompressed_onCurve {xBytes yBytes : Bytes32} {p : Point}
    (decoded : decodeUncompressed xBytes yBytes = .ok p) : p.OnCurve := by
  unfold decodeUncompressed at decoded
  split at decoded
  · exact ofCoordinates_onCurve decoded
  · exact nomatch decoded

theorem decodeCompressed_onCurve {marker : UInt8} {xBytes : Bytes32} {p : Point}
    (decoded : decodeCompressed marker xBytes = .ok p) : p.OnCurve := by
  unfold decodeCompressed at decoded
  split at decoded
  · exact liftX_onCurve decoded
  split at decoded
  · cases lifted : liftX xBytes with
    | error e =>
      rw [lifted] at decoded
      exact nomatch decoded
    | ok q =>
      rw [lifted] at decoded
      rw [← Except.ok.inj decoded]
      exact (liftX_onCurve lifted).neg
  · exact nomatch decoded

theorem decode_onCurve {bytes : Bytes} {p : Point} (decoded : decode bytes = .ok p) :
    p.OnCurve := by
  unfold decode at decoded
  split at decoded
  · simp only at decoded
    split at decoded
    · exact decodeUncompressed_onCurve decoded
    · cases decoded
  split at decoded
  · exact decodeCompressed_onCurve decoded
  split at decoded
  · exact liftX_onCurve decoded
  · cases decoded

/-! Points on the curve are decoded. -/

theorem liftX_toBytes (on : (affine x y).OnCurve) :
    liftX x.toBytes = .ok (affine x (evenOf y)) := by
  cases on with
  | affine equation =>
    obtain ⟨root, found⟩ := squareRoot_of_pow_two y
    have parity : evenOf root = evenOf y := by
      rcases sq_eq_sq_iff_eq_or_eq_neg.mp (squareRoot_pow_two found) with rfl | rfl
      · rfl
      · exact evenOf_neg y
    rw [equation, ← curveCubic_eq] at found
    rw [liftX_eq_ok_iff, ← parity]
    exact ⟨x, root, Residue.ofBytes?_toBytes x, found, rfl⟩

theorem decode_compressed (on : (affine x y).OnCurve) :
    decode (encodeCoordinates x y .compressed) = .ok (affine x y) := by
  have length : (encodeCoordinates x y .compressed).length = 33 := by
    rw [encodeCoordinates, List.length_cons, x.toBytes.length_eq]
  have slice : Bytes32.slice (encodeCoordinates x y .compressed) 1 (by omega) = x.toBytes := by
    have cut := Bytes32.slice_append [if y.isOdd then oddMarker else evenMarker] [] x.toBytes
    simp only [List.append_nil] at cut
    exact cut (by simp only [List.length_append, x.toBytes.length_eq]; omega)
  rw [decode, dif_neg (by omega), dif_pos length, slice, encodeCoordinates, List.headD_cons,
    decodeCompressed, liftX_toBytes on, evenOf]
  cases y.isOdd with
  | false => rfl
  | true =>
    change Except.ok (affine x (- -y)) = _
    rw [neg_neg]

theorem decode_uncompressed (on : (affine x y).OnCurve) :
    decode (encodeCoordinates x y .uncompressed) = .ok (affine x y) := by
  have length : (encodeCoordinates x y .uncompressed).length = 65 := by
    rw [encodeCoordinates, List.length_cons, List.length_append, x.toBytes.length_eq,
      y.toBytes.length_eq]
  have first : Bytes32.slice (encodeCoordinates x y .uncompressed) 1 (by omega) = x.toBytes :=
    Bytes32.slice_append [uncompressedMarker] y.toBytes.bytes x.toBytes _
  have second : Bytes32.slice (encodeCoordinates x y .uncompressed) 33 (by omega) = y.toBytes := by
    have cut := Bytes32.slice_append (uncompressedMarker :: x.toBytes.bytes) [] y.toBytes
    simp only [List.append_nil, List.length_cons, x.toBytes.length_eq] at cut
    exact cut (by
      rw [List.length_append, List.length_cons, x.toBytes.length_eq, y.toBytes.length_eq])
  rw [decode, dif_pos length, first, second, encodeCoordinates, List.headD_cons, if_pos rfl,
    decodeUncompressed, FieldElement.ofBytes?, FieldElement.ofBytes?,
    Residue.ofBytes?_toBytes, Residue.ofBytes?_toBytes]
  exact if_pos (onCurve_affine_iff.mp on)

end Point

namespace PublicKey

theorem ofPoint_eq_ok_iff {p : Point} {key : PublicKey} : ofPoint p = .ok key ↔ p = key.toPoint := by
  cases p with
  | infinity =>
    constructor
    · intro failed
      cases failed
    · intro equal
      cases equal
  | affine x y =>
    constructor
    · intro found
      rw [← Except.ok.inj found]
      rfl
    · intro equal
      obtain ⟨rfl, rfl⟩ := Point.affine.inj equal
      rfl

theorem decode_eq_ok_iff {bytes : Bytes} {key : PublicKey} :
    decode bytes = .ok key ↔ Point.decode bytes = .ok key.toPoint := by
  rw [decode]
  cases Point.decode bytes with
  | error e =>
    constructor
    · intro failed
      cases failed
    · intro failed
      cases failed
  | ok p =>
    rw [Except.ok.injEq]
    exact ofPoint_eq_ok_iff

theorem onCurve_of_decode {bytes : Bytes} {key : PublicKey} (decoded : decode bytes = .ok key) :
    key.toPoint.OnCurve :=
  Point.decode_onCurve (decode_eq_ok_iff.mp decoded)

theorem decode_encode {key : PublicKey} (on : key.toPoint.OnCurve) {format : Point.Format}
    (full : format ≠ .xOnly) : decode (key.encode format) = .ok key := by
  rw [decode_eq_ok_iff]
  cases format with
  | compressed => exact Point.decode_compressed on
  | uncompressed => exact Point.decode_uncompressed on
  | xOnly => exact absurd rfl full

end PublicKey

end BitcoinSigning
