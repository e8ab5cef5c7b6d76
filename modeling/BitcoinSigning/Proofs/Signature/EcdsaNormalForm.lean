import BitcoinSigning.Proofs.Modular.Canonical
import BitcoinSigning.Proofs.Signature.EcdsaSigning
/-!
Signatures come in pairs. Verification does not tell the second number from its opposite,
because opposite multipliers lead to opposite points, which have one first coordinate. One
number of a pair is in the lower half, and it is the one that normalization picks.
-/

namespace BitcoinSigning

namespace Scalar

variable {a : Scalar}

theorem isHigh_iff_toNat (a : Scalar) :
    a.isHigh = true ↔ groupOrder.value.toNat / 2 < a.toNat := by
  rw [isHigh_iff, Residue.val_toZMod]

/-- The order is odd, so exactly one of two opposite scalars is in the upper half. -/
theorem isHigh_neg (nonzero : a ≠ 0) : (-a).isHigh = !a.isHigh := by
  have odd : groupOrder.value.toNat % 2 = 1 := by decide
  have below := a.toNat_lt
  rw [Bool.eq_iff_iff, Bool.not_eq_true', ← Bool.not_eq_true, isHigh_iff_toNat, isHigh_iff_toNat,
    Residue.toNat_neg_of_ne_zero nonzero]
  omega

theorem ne_zero_of_isHigh (high : a.isHigh = true) : a ≠ 0 := by
  rintro rfl
  cases high

/-- The one of a scalar and its opposite that is in the lower half. -/
def lowOf (a : Scalar) : Scalar := if a.isHigh then -a else a

theorem isHigh_lowOf (a : Scalar) : a.lowOf.isHigh = false := by
  unfold lowOf
  cases high : a.isHigh with
  | false =>
    rw [if_neg Bool.false_ne_true]
    exact high
  | true =>
    rw [if_pos rfl, isHigh_neg (ne_zero_of_isHigh high), high]
    rfl

theorem lowOf_lowOf (a : Scalar) : a.lowOf.lowOf = a.lowOf := by
  rw [lowOf, isHigh_lowOf, if_neg Bool.false_ne_true]

theorem ofBytes?_eq_none_iff {bytes : Bytes32} :
    ofBytes? bytes = none ↔ groupOrder.value.toNat ≤ Bytes.ofBigEndian bytes.bytes := by
  rw [← not_iff_not, not_le, ← ne_eq, Option.ne_none_iff_exists']
  constructor
  · rintro ⟨a, read⟩
    rw [← Residue.ofBytes?_eq_some_iff_toNat.mp read]
    exact a.toNat_lt
  · intro below
    obtain ⟨a, rfl⟩ := Residue.exists_toBytes_eq below
    exact ⟨a, a.ofBytes?_toBytes⟩

end Scalar

namespace EcdsaSignature

variable {key : PublicKey} {signature : EcdsaSignature}

/-! Opposite numbers are verified alike. -/

theorem verifyScalars_neg (on : key.toPoint.OnCurve) (digest r s : Scalar) :
    verifyScalars key digest r (-s) = verifyScalars key digest r s := by
  by_cases zero : s = 0
  · rw [zero, neg_zero]
  · have opposite : (-s).invert = some (-s⁻¹) := by
      rw [Residue.invert_eq (neg_ne_zero.mpr zero), inv_neg]
    have points : key.toPoint.mulAddGenerator (digest * -s⁻¹) (r * -s⁻¹) =
        (key.toPoint.mulAddGenerator (digest * s⁻¹) (r * s⁻¹)).neg := by
      rw [mul_neg, mul_neg, Point.mulAddGenerator_neg_neg on]
    obtain ⟨combine, same⟩ : ∃ f, f = Point.mulAddGenerator := ⟨_, rfl⟩
    unfold verifyScalars
    rw [← same] at points ⊢
    rw [opposite, Residue.invert_eq zero]
    simp only [points, Point.x?_neg]

theorem verify_neg (on : key.toPoint.OnCurve) (r : Bytes32) (s : Scalar) (digest : Bytes32) :
    verify ⟨r, (-s).toBytes⟩ key digest = verify ⟨r, s.toBytes⟩ key digest := by
  by_cases zero : s = 0
  · rw [zero, neg_zero]
  · have read := Scalar.ofBytesNonzero?_eq_some_iff.mpr ⟨rfl, zero⟩
    have opposite := Scalar.ofBytesNonzero?_eq_some_iff.mpr ⟨rfl, neg_ne_zero.mpr zero⟩
    rw [verify, verify, read, opposite]
    cases Scalar.ofBytesNonzero? r with
    | none => rfl
    | some r => exact verifyScalars_neg on (Scalar.ofBytesReduced digest) r s

theorem verify_eq_of_opposite (on : key.toPoint.OnCurve) {r s opposite : Bytes32}
    (positive : 1 ≤ Bytes.ofBigEndian s.bytes)
    (below : Bytes.ofBigEndian s.bytes < groupOrder.value.toNat)
    (spelled : Bytes.ofBigEndian opposite.bytes =
      groupOrder.value.toNat - Bytes.ofBigEndian s.bytes) (digest : Bytes32) :
    verify ⟨r, opposite⟩ key digest = verify ⟨r, s⟩ key digest := by
  obtain ⟨a, rfl⟩ := Residue.exists_toBytes_eq below
  rw [Residue.ofBigEndian_toBytes] at positive spelled
  have nonzero : a ≠ 0 := by
    rintro rfl
    exact absurd positive (by decide)
  have negative : opposite = (-a).toBytes := by
    rw [← Residue.toNat_neg_of_ne_zero nonzero, eq_comm] at spelled
    exact Residue.ofBytes?_eq_some_iff.mp (Residue.ofBytes?_eq_some_iff_toNat.mpr spelled)
  rw [negative]
  exact verify_neg on r a digest

/-! Normalization. -/

theorem normalizeS_toBytes (r : Bytes32) (s : Scalar) :
    normalizeS ⟨r, s.toBytes⟩ = ⟨r, s.lowOf.toBytes⟩ := by
  have read : Scalar.ofBytes? s.toBytes = some s := s.ofBytes?_toBytes
  simp only [normalizeS, read, Scalar.lowOf]
  cases s.isHigh <;> rfl

theorem isLowS_toBytes (r : Bytes32) (s : Scalar) : isLowS ⟨r, s.toBytes⟩ = !s.isHigh := by
  have read : Scalar.ofBytes? s.toBytes = some s := s.ofBytes?_toBytes
  rw [isLowS, read]

section Large

variable (large : groupOrder.value.toNat ≤ Bytes.ofBigEndian signature.s.bytes)

include large

theorem normalizeS_of_le : signature.normalizeS = signature := by
  rw [normalizeS, Scalar.ofBytes?_eq_none_iff.mpr large]

theorem isLowS_of_le : signature.isLowS = false := by
  rw [isLowS, Scalar.ofBytes?_eq_none_iff.mpr large]

end Large

theorem scalar_or_large (signature : EcdsaSignature) :
    (∃ r s, signature = ⟨r, Residue.toBytes s⟩ ∧
      Bytes.ofBigEndian signature.s.bytes = (s : Scalar).toNat) ∨
    groupOrder.value.toNat ≤ Bytes.ofBigEndian signature.s.bytes := by
  obtain ⟨r, s⟩ := signature
  rcases lt_or_ge (Bytes.ofBigEndian s.bytes) groupOrder.value.toNat with below | large
  · obtain ⟨a, rfl⟩ := Residue.exists_toBytes_eq below
    exact Or.inl ⟨r, a, rfl, a.ofBigEndian_toBytes⟩
  · exact Or.inr large

theorem isLowS_iff (signature : EcdsaSignature) : signature.isLowS = true ↔
    Bytes.ofBigEndian signature.s.bytes ≤ groupOrder.value.toNat / 2 := by
  rcases scalar_or_large signature with ⟨r, s, rfl, number⟩ | large
  · rw [isLowS_toBytes, number, Bool.not_eq_true', ← Bool.not_eq_true, Scalar.isHigh_iff_toNat,
      not_lt]
  · rw [isLowS_of_le large, iff_false_left Bool.false_ne_true]
    have positive : 1 ≤ groupOrder.value.toNat := by decide
    omega

theorem r_normalizeS (signature : EcdsaSignature) : signature.normalizeS.r = signature.r := by
  rcases scalar_or_large signature with ⟨r, s, rfl, -⟩ | large
  · rw [normalizeS_toBytes]
  · rw [normalizeS_of_le large]

theorem normalizeS_normalizeS (signature : EcdsaSignature) :
    signature.normalizeS.normalizeS = signature.normalizeS := by
  rcases scalar_or_large signature with ⟨r, s, rfl, -⟩ | large
  · rw [normalizeS_toBytes, normalizeS_toBytes, Scalar.lowOf_lowOf]
  · rw [normalizeS_of_le large, normalizeS_of_le large]

theorem isLowS_normalizeS_iff (signature : EcdsaSignature) :
    signature.normalizeS.isLowS = true ↔
      Bytes.ofBigEndian signature.s.bytes < groupOrder.value.toNat := by
  rcases scalar_or_large signature with ⟨r, s, rfl, number⟩ | large
  · rw [normalizeS_toBytes, isLowS_toBytes, Scalar.isHigh_lowOf, number]
    exact iff_of_true rfl s.toNat_lt
  · rw [normalizeS_of_le large, isLowS_of_le large]
    exact iff_of_false Bool.false_ne_true (not_lt.mpr large)

theorem ofBigEndian_normalizeS
    (high : groupOrder.value.toNat / 2 < Bytes.ofBigEndian signature.s.bytes)
    (below : Bytes.ofBigEndian signature.s.bytes < groupOrder.value.toNat) :
    Bytes.ofBigEndian signature.normalizeS.s.bytes =
      groupOrder.value.toNat - Bytes.ofBigEndian signature.s.bytes := by
  rcases scalar_or_large signature with ⟨r, s, rfl, number⟩ | large
  · rw [number] at high ⊢
    have upper := (Scalar.isHigh_iff_toNat s).mpr high
    rw [normalizeS_toBytes, Scalar.lowOf, if_pos upper, Residue.ofBigEndian_toBytes,
      Residue.toNat_neg_of_ne_zero (Scalar.ne_zero_of_isHigh upper)]
  · exact absurd below (not_lt.mpr large)

theorem verify_normalizeS_eq (on : key.toPoint.OnCurve) (signature : EcdsaSignature)
    (digest : Bytes32) : signature.normalizeS.verify key digest = signature.verify key digest := by
  rcases scalar_or_large signature with ⟨r, s, rfl, -⟩ | large
  · rw [normalizeS_toBytes, Scalar.lowOf]
    split
    · exact verify_neg on r s digest
    · rfl
  · rw [normalizeS_of_le large]

/-- Under a decoded key a signature is accepted if and only if the one with the opposite second
number is, and normalization passes from the one to the other where the number is a scalar in
the upper half. -/
theorem verify_normalizeS (signature : EcdsaSignature) :
    (∀ bytes key digest, PublicKey.decode bytes = .ok key →
      signature.normalizeS.verify key digest = signature.verify key digest ∧
      ∀ opposite : Bytes32, 1 ≤ Bytes.ofBigEndian signature.s.bytes →
        Bytes.ofBigEndian signature.s.bytes < groupOrder.value.toNat →
        Bytes.ofBigEndian opposite.bytes =
          groupOrder.value.toNat - Bytes.ofBigEndian signature.s.bytes →
        verify ⟨signature.r, opposite⟩ key digest = signature.verify key digest) ∧
    signature.normalizeS.r = signature.r ∧
    signature.normalizeS.normalizeS = signature.normalizeS ∧
    (groupOrder.value.toNat ≤ Bytes.ofBigEndian signature.s.bytes →
      signature.normalizeS = signature) ∧
    (groupOrder.value.toNat / 2 < Bytes.ofBigEndian signature.s.bytes →
      Bytes.ofBigEndian signature.s.bytes < groupOrder.value.toNat →
      Bytes.ofBigEndian signature.normalizeS.s.bytes =
        groupOrder.value.toNat - Bytes.ofBigEndian signature.s.bytes) ∧
    (signature.isLowS = true ↔
      Bytes.ofBigEndian signature.s.bytes ≤ groupOrder.value.toNat / 2) ∧
    (signature.normalizeS.isLowS = true ↔
      Bytes.ofBigEndian signature.s.bytes < groupOrder.value.toNat) := by
  refine ⟨fun bytes key digest decoded => ?_, r_normalizeS signature,
    normalizeS_normalizeS signature, normalizeS_of_le, ofBigEndian_normalizeS,
    isLowS_iff signature, isLowS_normalizeS_iff signature⟩
  have on := PublicKey.onCurve_of_decode decoded
  refine ⟨verify_normalizeS_eq on signature digest, ?_⟩
  intro opposite positive below spelled
  exact verify_eq_of_opposite on positive below spelled digest

/-! A signature with a high number. -/

def sOne : Scalar :=
  ⟨⟨0x32bf6fbcc67fb4b8, 0xbb8e5c220badf235, 0x7fedf107fda18f5e, 0xb3e568e9ad1f5257⟩, by decide⟩

theorem sOf_one : sOf keyOne (Scalar.ofBytesReduced digestOne) nonceOne = sOne := by
  have nonzero : nonceOne ≠ 0 := by decide
  have r := rOf_eq mulGenerator_nonceOne
  rw [ofBytesReduced_digestOne, sOf, r, inv_mul_eq_iff_eq_mul₀ nonzero, ← Residue.toNat_inj]
  simp only [Residue.toNat_add, Residue.toNat_mul, Residue.toNat_natCast]
  decide +kernel

/-- The signature of the private key one is high. Normalized it is low, and both are accepted;
a number that is the order itself stays as it is. -/
theorem verify_normalizeS_one : ∃ pub signature,
    PublicKey.decode (pub.encode .compressed) = .ok pub ∧
    signature = ofNonce keyOne (Scalar.ofBytesReduced digestOne) nonceOne ∧
    signature.verify pub digestOne = true ∧ signature.isLowS = false ∧
    signature.normalizeS.verify pub digestOne = true ∧ signature.normalizeS.isLowS = true ∧
    verify ⟨signature.r, (-sOne).toBytes⟩ pub digestOne = true ∧
    Bytes.ofBigEndian signature.normalizeS.s.bytes = (-sOne).toNat ∧
    normalizeS ⟨signature.r, groupOrder.value.toBytes⟩ =
      ⟨signature.r, groupOrder.value.toBytes⟩ := by
  obtain ⟨pub, -, form, on⟩ := keyOne.exists_publicKey
  have accepted := verify_ofNonce (by decide) usable_one form
  have full : Point.Format.compressed ≠ .xOnly := by decide
  have decoded := PublicKey.decode_encode on full
  have number : Bytes.ofBigEndian
      (ofNonce keyOne (Scalar.ofBytesReduced digestOne) nonceOne).s.bytes = sOne.toNat := by
    rw [ofNonce, sOf_one, Residue.ofBigEndian_toBytes]
  have opposite : Bytes.ofBigEndian (-sOne).toBytes.bytes =
      groupOrder.value.toNat - sOne.toNat := by
    rw [Residue.ofBigEndian_toBytes, Residue.toNat_neg_of_ne_zero (by decide)]
  obtain ⟨alike, -, -, -, negated, low, lowAfter⟩ :=
    verify_normalizeS (ofNonce keyOne (Scalar.ofBytesReduced digestOne) nonceOne)
  obtain ⟨-, -, -, kept, -⟩ :=
    verify_normalizeS ⟨(rOf nonceOne).toBytes, groupOrder.value.toBytes⟩
  rw [number] at alike negated low lowAfter
  refine ⟨pub, _, decoded, rfl, accepted, ?_, ?_, ?_, ?_, ?_, ?_⟩
  · rw [← Bool.not_eq_true, low]
    decide
  · rw [(alike _ _ _ decoded).1, accepted]
  · exact lowAfter.mpr (by decide)
  · rw [(alike _ _ _ decoded).2 _ (by decide) (by decide) opposite, accepted]
  · rw [negated (by decide) (by decide), ← opposite, Residue.ofBigEndian_toBytes]
  · exact kept (le_of_eq (Nat256.ofBigEndian_toBytes _).symm)

end EcdsaSignature

end BitcoinSigning
