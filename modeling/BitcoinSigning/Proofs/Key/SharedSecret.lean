import BitcoinSigning.Proofs.Curve.Encodings
import BitcoinSigning.Proofs.Key.EvenKey
/-!
Shared secrets. A multiple of a public key has a first coordinate, because no point of the
curve has a small order, and two parties who multiply one another's keys arrive at one
point. Opposite keys lead to opposite points, so the secret has no use for a parity.
-/

namespace BitcoinSigning

open Point (mulGenerator)

namespace PublicKey

inductive Obtained : PublicKey → Prop
  | decoded {bytes : Bytes} {key : PublicKey} (read : decode bytes = .ok key) : Obtained key
  | derived {owner : PrivateKey} {key : PublicKey} (found : owner.publicKey = .ok key) :
    Obtained key

theorem Obtained.onCurve {key : PublicKey} (obtained : key.Obtained) : key.toPoint.OnCurve := by
  cases obtained with
  | decoded read => exact onCurve_of_decode read
  | derived found => exact PrivateKey.onCurve_of_publicKey found

theorem decode_encode_xOnly {key : PublicKey} (on : key.toPoint.OnCurve) :
    ∃ lifted, decode (key.encode .xOnly) = .ok lifted ∧
      (lifted.toPoint = key.toPoint ∨ lifted.toPoint = key.toPoint.neg) :=
  ⟨⟨key.x, FieldElement.evenOf key.y⟩, decode_eq_ok_iff.mpr (Point.decode_xOnly on),
    Point.evenOf_eq_or_neg key.x key.y⟩

theorem map_xBytes_ofPoint_neg (p : Point) :
    (ofPoint p.neg).map xBytes = (ofPoint p).map xBytes := by
  cases p <;> rfl

end PublicKey

namespace PrivateKey

variable (key : PrivateKey) {other opposite : PublicKey}

theorem exists_sharedSecret (on : other.toPoint.OnCurve) :
    ∃ x y, other.toPoint.mul key.scalar = .affine x y ∧
      key.sharedSecret other = .ok x.toBytes := by
  cases value : other.toPoint.mul key.scalar with
  | infinity =>
    rcases (on.mul_eq_infinity_iff key.scalar).mp value with zero | infinite
    · exact absurd zero key.scalar_ne_zero
    · cases infinite
  | affine x y =>
    refine ⟨x, y, rfl, ?_⟩
    rw [sharedSecret, value]
    rfl

theorem sharedSecret_neg (on : other.toPoint.OnCurve) :
    key.neg.sharedSecret other = key.sharedSecret other := by
  rw [sharedSecret, neg, on.mul_neg, PublicKey.map_xBytes_ofPoint_neg, ← sharedSecret]

theorem sharedSecret_of_toPoint_neg (on : other.toPoint.OnCurve)
    (form : opposite.toPoint = other.toPoint.neg) :
    key.sharedSecret opposite = key.sharedSecret other := by
  rw [sharedSecret, form, on.neg_mul, PublicKey.map_xBytes_ofPoint_neg, ← sharedSecret]

theorem sharedSecret_of_publicKey {owner : PrivateKey} (found : owner.publicKey = .ok other) :
    key.sharedSecret other =
      (PublicKey.ofPoint (mulGenerator (key.scalar * owner.scalar))).map PublicKey.xBytes := by
  rw [sharedSecret, ← publicKey_eq_ok_iff.mp found, Point.mul_mulGenerator]

/-- There is a secret for every private key and every public key that is read or derived. It
is the first coordinate of the repeated sum, it does not depend on the sign of either key,
and two parties agree on it. -/
theorem sharedSecret_agrees :
    (∀ (key : PrivateKey) (other : PublicKey), other.Obtained →
      (∃ x y, other.toPoint.add^[key.scalar.toNat] .infinity = .affine x y ∧
        key.sharedSecret other = .ok x.toBytes) ∧
      key.neg.sharedSecret other = key.sharedSecret other ∧
      (∃ opposite, PublicKey.ofPoint other.toPoint.neg = .ok opposite ∧
        key.sharedSecret opposite = key.sharedSecret other) ∧
      ∃ lifted, PublicKey.decode (other.encode .xOnly) = .ok lifted ∧
        key.sharedSecret lifted = key.sharedSecret other) ∧
    ∀ a b : PrivateKey, ∃ pubA pubB secret, a.publicKey = .ok pubA ∧ b.publicKey = .ok pubB ∧
      a.sharedSecret pubB = .ok secret ∧ b.sharedSecret pubA = .ok secret := by
  constructor
  · intro key other obtained
    have on := obtained.onCurve
    refine ⟨?_, key.sharedSecret_neg on, ?_, ?_⟩
    · rw [← Point.mul_eq_iterate on]
      exact key.exists_sharedSecret on
    · exact ⟨⟨other.x, -other.y⟩, rfl, key.sharedSecret_of_toPoint_neg on rfl⟩
    · obtain ⟨lifted, read, same | opposite⟩ := PublicKey.decode_encode_xOnly on
      · refine ⟨lifted, read, ?_⟩
        rw [sharedSecret, same, ← sharedSecret]
      · exact ⟨lifted, read, key.sharedSecret_of_toPoint_neg on opposite⟩
  · intro a b
    obtain ⟨pubA, foundA, -, -⟩ := a.exists_publicKey
    obtain ⟨pubB, foundB, -, onB⟩ := b.exists_publicKey
    obtain ⟨x, -, -, secret⟩ := a.exists_sharedSecret onB
    refine ⟨pubA, pubB, x.toBytes, foundA, foundB, secret, ?_⟩
    rw [sharedSecret_of_publicKey b foundA, mul_comm, ← sharedSecret_of_publicKey a foundB, secret]

theorem sharedSecret_agrees_greatest :
    ∃ pub lifted, greatest.publicKey = .ok pub ∧
      PublicKey.decode (pub.encode .compressed) = .ok pub ∧
      PublicKey.decode (pub.encode .xOnly) = .ok lifted ∧
      greatest.sharedSecret pub = .ok (Point.generator.x?.getD 0).toBytes ∧
      greatest.neg.sharedSecret pub = greatest.sharedSecret pub ∧
      greatest.sharedSecret lifted = greatest.sharedSecret pub := by
  obtain ⟨pub, found, -, on⟩ := greatest.exists_publicKey
  have read := PublicKey.decode_encode on (show Point.Format.compressed ≠ .xOnly by decide)
  obtain ⟨-, negated, -, lifted, readX, same⟩ :=
    sharedSecret_agrees.1 greatest pub (.decoded read)
  refine ⟨pub, lifted, found, read, readX, ?_, negated, same⟩
  have negative : greatest.scalar = -1 := rfl
  rw [sharedSecret, publicKey_greatest found, Point.generator_onCurve.neg_mul, negative,
    Point.generator_mul_neg_one, PublicKey.map_xBytes_ofPoint_neg,
    PublicKey.map_xBytes_ofPoint_neg]
  rfl

end PrivateKey

end BitcoinSigning
