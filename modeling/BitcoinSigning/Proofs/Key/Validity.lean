import BitcoinSigning.Proofs.Key.SharedSecret
/-!
Which public keys are points of the curve. Keys that are read or derived always are. A key that
is made from a point has the point's coordinates, whatever they are, and so may lie on another
curve, where points of small order put an end to the agreement on a secret.
-/

namespace BitcoinSigning

namespace Point

/-- A point that is its own opposite is in the group of the curve that goes through it, where
its multiples are itself and infinity in turn. -/
theorem mul_of_flat {x : FieldElement} (nonzero : x ≠ 0) (k : Scalar) :
    (affine x 0).mul k = if k.toNat % 2 = 0 then infinity else affine x 0 := by
  have equation : (0 : FieldElement) ^ 2 = x ^ 3 + -x ^ 3 := by ring
  have inGroup : (curve (-x ^ 3)).Nonsingular x 0 :=
    curve.nonsingular_iff.mpr ⟨equation, fun both => nonzero both.1⟩
  have form : ofGroup (.some x 0 inGroup) = affine x 0 := rfl
  generalize (.some x 0 inGroup : (curve (-x ^ 3)).Point) = A at form
  have twice : A + A = 0 := by
    apply ofGroup_injective
    rw [ofGroup_add, form, ofGroup_zero, add_eq_chordTangent, chordTangent,
      if_neg (not_not.mpr rfl), if_neg fun both => both.2 rfl]
  have remainder : k.toNat • A = (k.toNat % 2) • A := by
    rw [← two_nsmul] at twice
    conv_lhs => rw [← Nat.mod_add_div k.toNat 2, add_nsmul, mul_nsmul, twice, nsmul_zero, add_zero]
  rw [← form, ofGroup_mul, remainder]
  rcases Nat.mod_two_eq_zero_or_one k.toNat with even | odd
  · rw [even, zero_nsmul, if_pos rfl, ofGroup_zero]
  · rw [odd, one_nsmul, if_neg Nat.one_ne_zero]

end Point

namespace PublicKey

inductive Origin
  | encoding (bytes : Bytes)
  | owner (key : PrivateKey)
  | point (p : Point)

def ofOrigin : Origin → Except CurveError PublicKey
  | .encoding bytes => decode bytes
  | .owner key => key.publicKey
  | .point p => ofPoint p

/-- Nothing but a point that is given as one has to be on the curve. -/
inductive Origin.Valid : Origin → Prop
  | encoding (bytes : Bytes) : Valid (.encoding bytes)
  | owner (key : PrivateKey) : Valid (.owner key)
  | point {p : Point} (on : p.OnCurve) : Valid (.point p)

variable {key : PublicKey}

theorem onCurve_iff_valid {origin : Origin} (made : ofOrigin origin = .ok key) :
    key.toPoint.OnCurve ↔ origin.Valid := by
  cases origin with
  | encoding bytes => exact iff_of_true (onCurve_of_decode made) (.encoding bytes)
  | owner owner => exact iff_of_true (PrivateKey.onCurve_of_publicKey made) (.owner owner)
  | point p =>
    rw [← ofPoint_eq_ok_iff.mp made]
    exact ⟨.point, fun (.point on) => on⟩

theorem sharedSecret_of_flat {x : FieldElement} (nonzero : x ≠ 0) (owner : PrivateKey) :
    owner.sharedSecret ⟨x, 0⟩ =
      if owner.scalar.toNat % 2 = 0 then .error .pointAtInfinity else .ok x.toBytes := by
  have multiple : (toPoint ⟨x, 0⟩).mul owner.scalar = _ := Point.mul_of_flat nonzero owner.scalar
  rw [PrivateKey.sharedSecret, multiple]
  split <;> rfl

theorem not_onCurve_of_flat (x : FieldElement) : ¬(toPoint ⟨x, 0⟩).OnCurve :=
  fun on => on.y_ne_zero rfl

/-- A key that is made is a point of the curve exactly if no point off the curve was given for
it, and then it has a secret with every private key. Of the others, those on the axis have none
with private keys that are even. -/
theorem ofOrigin_onCurve_iff {origin : Origin} (made : ofOrigin origin = .ok key) :
    (key.toPoint.OnCurve ↔ origin.Valid) ∧
    (origin.Valid → ∀ owner : PrivateKey, ∃ secret, owner.sharedSecret key = .ok secret) ∧
    (key.x ≠ 0 → key.y = 0 → ¬origin.Valid ∧ ∀ owner : PrivateKey,
      owner.sharedSecret key =
        if owner.scalar.toNat % 2 = 0 then .error .pointAtInfinity else .ok key.xBytes) := by
  have validity := onCurve_iff_valid made
  refine ⟨validity, ?_, ?_⟩
  · intro valid owner
    obtain ⟨x, -, -, secret⟩ := owner.exists_sharedSecret (validity.mpr valid)
    exact ⟨x.toBytes, secret⟩
  · obtain ⟨x, y⟩ := key
    rintro nonzero rfl
    exact ⟨mt validity.mpr (not_onCurve_of_flat x), sharedSecret_of_flat nonzero⟩

theorem ofOrigin_onCurve_iff_greatest :
    ∃ key, ofOrigin (.owner .greatest) = .ok key ∧ key.toPoint.OnCurve ∧
      ∃ secret, PrivateKey.greatest.sharedSecret key = .ok secret := by
  obtain ⟨key, found, -⟩ := PrivateKey.greatest.exists_publicKey
  have made : ofOrigin (.owner .greatest) = .ok key := found
  obtain ⟨validity, secrets, -⟩ := ofOrigin_onCurve_iff made
  exact ⟨key, made, validity.mpr (.owner _), secrets (.owner _) .greatest⟩

def keyTwo : PrivateKey := ⟨Residue.ofWord 2, rfl⟩

/-- The point `(1, 0)` is off the curve, a key is made from it, and the key has no secret with
the private key two. -/
theorem exists_ofOrigin_not_onCurve :
    ofOrigin (.point (.affine 1 0)) = .ok ⟨1, 0⟩ ∧ ¬(toPoint ⟨1, 0⟩).OnCurve ∧
      keyTwo.sharedSecret ⟨1, 0⟩ = .error .pointAtInfinity := by
  refine ⟨rfl, not_onCurve_of_flat 1, ?_⟩
  rw [sharedSecret_of_flat one_ne_zero]
  rfl

end PublicKey

end BitcoinSigning
