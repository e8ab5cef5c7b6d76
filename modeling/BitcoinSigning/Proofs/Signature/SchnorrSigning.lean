import BitcoinSigning.Proofs.Key.EvenKey
import BitcoinSigning.Proofs.Signature.SchnorrVerification
/-!
Signing with Schnorr. The private scalar and the nonce are each taken with the
sign that makes their point even, which is the point that verification lifts. So
whatever the two parities are, the equation of verification holds for what is
signed, and the check before a signature is given out finds nothing.
-/

namespace BitcoinSigning.SchnorrSignature

open Point (liftX mulGenerator)

variable {key : PrivateKey} {pub : PublicKey} {publicKey message random : Bytes32}
  {secret k : Scalar} {signature : SchnorrSignature}

/-! What is signed with. -/

theorem evenKey_eq (found : key.publicKey = .ok pub) :
    evenKey key = .ok (Scalar.evenOf key.scalar, pub.xBytes) := by
  rw [evenKey, found, ← PrivateKey.scalar_negIf found]
  rfl

theorem evenKey_neg (key : PrivateKey) : evenKey key.neg = evenKey key := by
  obtain ⟨pub, found, -⟩ := key.exists_publicKey
  rw [evenKey_eq found, evenKey_eq (PrivateKey.publicKey_neg found), key.evenOf_neg]
  rfl

theorem sign_neg (key : PrivateKey) (message random : Bytes32) :
    sign key.neg message random = sign key message random := by
  unfold sign
  rw [evenKey_neg]

/-! One nonce. -/

/-- A nonce other than zero has a point with a first coordinate, and gives a
signature with it that verifies. -/
theorem exists_signWith? (lifted : liftX publicKey = .ok (mulGenerator secret))
    (message : Bytes32) (nonzero : k ≠ 0) :
    ∃ signature, signWith? secret publicKey message k = some signature ∧
      signature.verify publicKey message = true := by
  obtain ⟨x, y, value, on⟩ := Point.exists_affine_of_mulGenerator nonzero
  have liftedNonce : liftX x.toBytes = .ok (mulGenerator (Scalar.evenOf k)) := by
    rw [Scalar.mulGenerator_evenOf, value]
    exact on.liftX_even rfl
  have made : signWith? secret publicKey message k = some ⟨x.toBytes,
      (Scalar.evenOf k + challenge x.toBytes publicKey message * secret).toBytes⟩ := by
    rw [signWith?, Scalar.evenOf, value]
    rfl
  refine ⟨_, made, ?_⟩
  rw [verify_iff_of_liftX lifted liftedNonce, ← Point.mulAddGenerator_mulGenerator,
    Point.mulAddGenerator_eq]

/-! Signing. -/

theorem sign_of_nonce_eq_zero (found : evenKey key = .ok (secret, publicKey))
    (zero : nonce secret publicKey message random = 0) :
    sign key message random = .error .zeroNonce := by
  unfold sign
  rw [found]
  simp only [zero]
  rfl

theorem sign_of_signWith? (found : evenKey key = .ok (secret, publicKey))
    (nonzero : nonce secret publicKey message random ≠ 0)
    (made : signWith? secret publicKey message (nonce secret publicKey message random) =
      some signature)
    (valid : signature.verify publicKey message = true) :
    sign key message random = .ok signature := by
  have usable := (nonce secret publicKey message random).isZero_eq_false.mpr nonzero
  unfold sign
  rw [found]
  simp only [usable, made, valid]
  rfl

/-- Signing succeeds with a signature that verifies, unless the nonce is zero, and
that is the only error. A key and its opposite give the same signature, or both
the error. -/
theorem exists_valid_of_nonce_ne_zero (key : PrivateKey) (message random : Bytes32) :
    ∃ pub secret, key.publicKey = .ok pub ∧
      secret = (if pub.hasEvenY then key.scalar else -key.scalar) ∧
      evenKey key = .ok (secret, pub.xBytes) ∧
      (nonce secret pub.xBytes message random ≠ 0 →
        mulGenerator (nonce secret pub.xBytes message random) ≠ .infinity ∧
        ∃ signature, sign key message random = .ok signature ∧
          signWith? secret pub.xBytes message (nonce secret pub.xBytes message random) =
            some signature ∧
          signature.verify pub.xBytes message = true) ∧
      (∀ e, sign key message random = .error e ↔
        e = .zeroNonce ∧ nonce secret pub.xBytes message random = 0) ∧
      sign key.neg message random = sign key message random := by
  obtain ⟨pub, found, form, -⟩ := key.exists_publicKey
  have even := evenKey_eq found
  have signed (nonzero : nonce (Scalar.evenOf key.scalar) pub.xBytes message random ≠ 0) :
      ∃ signature, sign key message random = .ok signature ∧
        signWith? (Scalar.evenOf key.scalar) pub.xBytes message
          (nonce (Scalar.evenOf key.scalar) pub.xBytes message random) = some signature ∧
        signature.verify pub.xBytes message = true := by
    obtain ⟨signature, made, valid⟩ :=
      exists_signWith? (PrivateKey.liftX_xBytes found) message nonzero
    exact ⟨signature, sign_of_signWith? even nonzero made valid, made, valid⟩
  refine ⟨pub, Scalar.evenOf key.scalar, found, ?_, even, fun nonzero => ⟨?_, signed nonzero⟩,
    fun e => ⟨fun failed => ?_, ?_⟩, sign_neg key message random⟩
  · rw [Scalar.evenOf, ← form]
    rfl
  · obtain ⟨x, y, value, -⟩ := Point.exists_affine_of_mulGenerator nonzero
    rw [value]
    exact Point.noConfusion
  · by_cases zero : nonce (Scalar.evenOf key.scalar) pub.xBytes message random = 0
    · rw [sign_of_nonce_eq_zero even zero] at failed
      exact ⟨(Except.error.inj failed).symm, zero⟩
    · obtain ⟨signature, made, -⟩ := signed zero
      cases made.symm.trans failed
  · rintro ⟨rfl, zero⟩
    exact sign_of_nonce_eq_zero even zero

theorem exists_valid_of_nonce_ne_zero_greatest :
    ∃ pub signature, PrivateKey.greatest.publicKey = .ok pub ∧
      sign PrivateKey.greatest Bytes32.zero Bytes32.zero = .ok signature ∧
      signature.verify pub.xBytes Bytes32.zero = true := by
  obtain ⟨pub, secret, found, -, even, signed, -⟩ :=
    exists_valid_of_nonce_ne_zero PrivateKey.greatest Bytes32.zero Bytes32.zero
  have scalar : secret = 1 := by
    rw [evenKey_eq found, PrivateKey.evenOf_greatest] at even
    exact (Prod.mk.inj (Except.ok.inj even)).1.symm
  have nonzero : nonce secret pub.xBytes Bytes32.zero Bytes32.zero ≠ 0 := by
    rw [scalar, PrivateKey.xBytes_greatest found]
    decide +kernel
  obtain ⟨-, signature, made, -, valid⟩ := signed nonzero
  exact ⟨pub, signature, found, made, valid⟩

end BitcoinSigning.SchnorrSignature
