import BitcoinSigning.Proofs.Curve.EvenLift
import BitcoinSigning.Signature.Schnorr
/-!
What Schnorr signatures are accepted. Verification computes a point and compares
its first coordinate and its parity; that is the equation between the points that
the key and the signature's first half are lifted to. The equation has one
solution for the second half, because every point is one multiple of the generator.
-/

namespace BitcoinSigning

theorem Bytes32.halves?_append (first second : Bytes32) :
    halves? (first.bytes ++ second.bytes) = some (first, second) := by
  have wide : (first.bytes ++ second.bytes).length = 64 := by
    rw [List.length_append, first.length_eq, second.length_eq]
  have left := slice_append [] second.bytes first
  have right := slice_append first.bytes [] second
  simp only [List.nil_append, List.append_nil, List.length_nil, first.length_eq] at left right
  rw [halves?, dif_pos wide, left (by omega), right (by omega)]

namespace SchnorrSignature

open Point (liftX mulGenerator generator)

variable {publicKey message r s : Bytes32} {P R : Point} {a : Scalar}

def challengeNumber (r publicKey message : Bytes32) : Nat :=
  Bytes.ofBigEndian
    (HashTag.schnorrChallenge.hash (r.bytes ++ publicKey.bytes ++ message.bytes)).bytes

theorem toNat_challenge (r publicKey message : Bytes32) :
    (challenge r publicKey message).toNat =
      challengeNumber r publicKey message % groupOrder.value.toNat :=
  Residue.toNat_ofBytesReduced _

theorem verify_of_liftX (lifted : liftX publicKey = .ok P) :
    verify ⟨r, a.toBytes⟩ publicKey message = true ↔
      liftX r = .ok (P.mulAddGenerator a (-challenge r publicKey message)) := by
  have response : Scalar.ofBytes? a.toBytes = some a := a.ofBytes?_toBytes
  have on := ((Point.liftX_onCurve lifted).mulAddGenerator a (-challenge r publicKey message))
  rw [verify, lifted, response]
  cases read : FieldElement.ofBytes? r with
  | none =>
    refine iff_of_false Bool.false_ne_true fun lifted => ?_
    obtain ⟨x, -, read', -⟩ := Point.liftX_eq_ok_iff.mp lifted
    exact nomatch read.symm.trans read'
  | some x =>
    obtain rfl := Residue.ofBytes?_eq_some_iff.mp read
    rw [on.liftX_toBytes_eq_ok_iff]
    simp only [Bool.and_eq_true, beq_iff_eq]

/-- Verification is the equation between the lifted points. -/
theorem verify_iff_of_liftX (liftedP : liftX publicKey = .ok P) (liftedR : liftX r = .ok R) :
    verify ⟨r, a.toBytes⟩ publicKey message = true ↔
      mulGenerator a = R.add (P.mul (challenge r publicKey message)) := by
  rw [verify_of_liftX liftedP, liftedR, Except.ok.injEq, eq_comm,
    Point.mulAddGenerator_neg_eq_iff (Point.liftX_onCurve liftedP) (Point.liftX_onCurve liftedR)]

theorem exists_of_verify (accepted : verify ⟨r, s⟩ publicKey message = true) :
    ∃ P R, liftX publicKey = .ok P ∧ liftX r = .ok R ∧ ∃ a : Scalar, s = a.toBytes := by
  cases liftedP : liftX publicKey with
  | error e =>
    rw [verify, liftedP] at accepted
    cases accepted
  | ok P =>
    cases response : Scalar.ofBytes? s with
    | none =>
      rw [verify, liftedP, response] at accepted
      cases read : FieldElement.ofBytes? r <;> rw [read] at accepted <;> cases accepted
    | some a =>
      obtain rfl := Residue.ofBytes?_eq_some_iff.mp response
      exact ⟨P, _, rfl, (verify_of_liftX liftedP).mp accepted, a, rfl⟩

theorem mulGenerator_eq_iff_iterate (onP : P.OnCurve) (e : Scalar) :
    mulGenerator a = R.add (P.mul e) ↔
      generator.add^[a.toNat] .infinity = R.add (P.add^[e.toNat] .infinity) := by
  rw [mulGenerator, Point.mul_eq_iterate Point.generator_onCurve, Point.mul_eq_iterate onP]

theorem verify_iff :
    verify ⟨r, s⟩ publicKey message = true ↔
      ∃ P R, liftX publicKey = .ok P ∧ liftX r = .ok R ∧
        Bytes.ofBigEndian s.bytes < groupOrder.value.toNat ∧
        generator.add^[Bytes.ofBigEndian s.bytes] .infinity =
          R.add (P.add^[challengeNumber r publicKey message % groupOrder.value.toNat]
            .infinity) := by
  rw [← toNat_challenge]
  constructor
  · intro accepted
    obtain ⟨P, R, liftedP, liftedR, a, rfl⟩ := exists_of_verify accepted
    rw [verify_iff_of_liftX liftedP liftedR,
      mulGenerator_eq_iff_iterate (Point.liftX_onCurve liftedP)] at accepted
    rw [Residue.ofBigEndian_toBytes]
    exact ⟨P, R, liftedP, liftedR, a.toNat_lt, accepted⟩
  · rintro ⟨P, R, liftedP, liftedR, below, equation⟩
    obtain ⟨a, rfl⟩ := Residue.exists_toBytes_eq below
    rw [Residue.ofBigEndian_toBytes] at equation
    rw [verify_iff_of_liftX liftedP liftedR,
      mulGenerator_eq_iff_iterate (Point.liftX_onCurve liftedP)]
    exact equation

theorem existsUnique_verify (liftedP : liftX publicKey = .ok P) (liftedR : liftX r = .ok R) :
    ∃! s, verify ⟨r, s⟩ publicKey message = true := by
  have on : (R.add (P.mul (challenge r publicKey message))).OnCurve :=
    (Point.liftX_onCurve liftedR).add ((Point.liftX_onCurve liftedP).mul _)
  obtain ⟨a, solves, unique⟩ := on.existsUnique_mulGenerator
  refine ⟨a.toBytes, (verify_iff_of_liftX liftedP liftedR).mpr solves, ?_⟩
  intro s accepted
  obtain ⟨-, -, -, -, a', rfl⟩ := exists_of_verify accepted
  rw [unique a' ((verify_iff_of_liftX liftedP liftedR).mp accepted)]

/-- A signature is accepted exactly when its equation holds between the points
that the key and its first half are lifted to. Whenever there are such points one
second half is accepted, and otherwise none is. -/
theorem verify_iff_and_existsUnique (publicKey message r : Bytes32) :
    (∀ s : Bytes32, ofBytes? (r.bytes ++ s.bytes) = some ⟨r, s⟩ ∧
      (verify ⟨r, s⟩ publicKey message = true ↔
        ∃ P R, liftX publicKey = .ok P ∧ liftX r = .ok R ∧
          Bytes.ofBigEndian s.bytes < groupOrder.value.toNat ∧
          generator.add^[Bytes.ofBigEndian s.bytes] .infinity =
            R.add (P.add^[challengeNumber r publicKey message % groupOrder.value.toNat]
              .infinity))) ∧
    (∀ P R, liftX publicKey = .ok P → liftX r = .ok R →
      ∃! s, verify ⟨r, s⟩ publicKey message = true) ∧
    ((¬∃ P R, liftX publicKey = .ok P ∧ liftX r = .ok R) →
      ∀ s, verify ⟨r, s⟩ publicKey message = false) := by
  refine ⟨fun s => ⟨?_, verify_iff⟩, fun P R liftedP liftedR => ?_, fun unlifted s => ?_⟩
  · rw [ofBytes?, Bytes32.halves?_append]
    rfl
  · exact existsUnique_verify liftedP liftedR
  · rw [← Bool.not_eq_true]
    intro accepted
    obtain ⟨P, R, liftedP, liftedR, -⟩ := exists_of_verify accepted
    exact unlifted ⟨P, R, liftedP, liftedR⟩

def highBytes : Bytes32 := ⟨List.replicate 32 0xff, List.length_replicate⟩

theorem liftX_highBytes : liftX highBytes = .error .notOnCurve := by
  have read : FieldElement.ofBytes? highBytes = none := by decide
  rw [liftX, read]

theorem verify_iff_and_existsUnique_generator :
    ∃ x : FieldElement, generator.x? = some x ∧
      (∃! s, verify ⟨x.toBytes, s⟩ x.toBytes Bytes32.zero = true) ∧
      ∀ s, verify ⟨highBytes, s⟩ x.toBytes Bytes32.zero = false := by
  have lifted := Point.liftX_toBytes Point.generator_onCurve
  refine ⟨_, rfl, (verify_iff_and_existsUnique _ _ _).2.1 _ _ lifted lifted,
    (verify_iff_and_existsUnique _ _ _).2.2 ?_⟩
  rintro ⟨P, R, -, liftedR⟩
  exact nomatch liftX_highBytes.symm.trans liftedR

end SchnorrSignature

end BitcoinSigning
