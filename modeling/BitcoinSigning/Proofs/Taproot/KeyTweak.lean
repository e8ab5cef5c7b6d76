import BitcoinSigning.Proofs.Key.EvenKey
import BitcoinSigning.Taproot.Tweak
/-!
Tweaking a private key, and tweaking the first coordinate of its point without
knowing it. The two start from one pair of opposite keys, of which both take the
even one, and move it by one multiple of the generator; so they succeed together,
with a private key and its point, or fail together.
-/

namespace BitcoinSigning.Taproot

open Point (mulGenerator)

variable {key : PrivateKey} {pub : PublicKey} {commitment : Bytes}

/-- Outcomes of the two sides that belong together: a private key and its point, a
digest that is no scalar, or a sum that is zero and so has no point. -/
inductive Paired : Except TaprootError PrivateKey → Except TaprootError (Bytes32 × Bool) → Prop
  | tweaked {key : PrivateKey} {pub : PublicKey} (found : key.publicKey = .ok pub) :
    Paired (.ok key) (.ok (pub.xBytes, !pub.hasEvenY))
  | unusable : Paired (.error .invalidTweak) (.error .invalidTweak)
  | cancelled : Paired (.error .zeroTweakedKey) (.error (.curve .pointAtInfinity))

namespace Paired

variable {left : Except TaprootError PrivateKey} {right : Except TaprootError (Bytes32 × Bool)}

theorem ok_iff (paired : Paired left right) :
    (∃ key, left = .ok key) ↔ ∃ output, right = .ok output := by
  cases paired <;> simp

theorem exists_of_ok (paired : Paired left right) {key : PrivateKey} {x : Bytes32} {odd : Bool}
    (secret : left = .ok key) (output : right = .ok (x, odd)) :
    ∃ pub, key.publicKey = .ok pub ∧ pub.xBytes = x ∧ (pub.y.isOdd = true ↔ odd = true) := by
  cases paired with
  | @tweaked key' pub found =>
    obtain rfl := Except.ok.inj secret
    obtain ⟨rfl, rfl⟩ := Prod.mk.inj (Except.ok.inj output)
    refine ⟨pub, found, rfl, ?_⟩
    rw [PublicKey.hasEvenY, Bool.not_not]
  | unusable => cases secret
  | cancelled => cases secret

theorem error_iff (paired : Paired left right) :
    (left = .error .invalidTweak ↔ right = .error .invalidTweak) ∧
    (left = .error .zeroTweakedKey ↔ right = .error (.curve .pointAtInfinity)) := by
  cases paired <;> simp

theorem error_cases (paired : Paired left right) :
    (∀ e, left = .error e → e = .invalidTweak ∨ e = .zeroTweakedKey) ∧
    (∀ e, right = .error e → e = .invalidTweak ∨ e = .curve .pointAtInfinity) := by
  cases paired <;> simp

end Paired

/-! Moving a key and its point. -/

theorem paired_of_scalar (a : Scalar) :
    Paired ((PrivateKey.ofScalar a).mapError fun _ => .zeroTweakedKey)
      (((PublicKey.ofPoint (mulGenerator a)).mapError .curve).map
        fun pub => (pub.xBytes, !pub.hasEvenY)) := by
  rcases PrivateKey.ofScalar_cases a with ⟨key, pub, made, -, found, point⟩ | ⟨failed, infinite⟩
  · rw [made, point]
    exact .tweaked found
  · rw [failed, infinite]
    exact .cancelled

theorem error_of_tweak {x : Bytes32} {e : TaprootError} (failed : tweak x commitment = .error e) :
    e = .invalidTweak := by
  unfold tweak at failed
  split at failed
  · cases failed
  · exact (Except.error.inj failed).symm

section Tweak

variable (found : key.publicKey = .ok pub)

include found

theorem tweakPrivate_eq :
    tweakPrivate key commitment = (tweak pub.xBytes commitment).bind fun t =>
      (PrivateKey.ofScalar (Scalar.evenOf key.scalar + t)).mapError fun _ => .zeroTweakedKey := by
  rw [tweakPrivate, found, ← PrivateKey.scalar_negIf found]
  rfl

theorem tweakPublic_eq :
    tweakPublic pub.xBytes commitment = (tweak pub.xBytes commitment).bind fun t =>
      ((PublicKey.ofPoint (mulGenerator (Scalar.evenOf key.scalar + t))).mapError .curve).map
        fun pub => (pub.xBytes, !pub.hasEvenY) := by
  have moved (t : Scalar) :
      (mulGenerator (Scalar.evenOf key.scalar)).mulAddGenerator t Residue.one =
        mulGenerator (Scalar.evenOf key.scalar + t) := by
    rw [Point.mulAddGenerator_mulGenerator, Residue.one_eq, one_mul, add_comm]
  rw [tweakPublic, PrivateKey.liftX_xBytes found]
  refine congrArg (tweak pub.xBytes commitment).bind (funext fun t => ?_)
  rw [← moved]
  generalize (mulGenerator (Scalar.evenOf key.scalar)).mulAddGenerator t Residue.one = point
  cases point <;> rfl

theorem paired_tweak :
    Paired (tweakPrivate key commitment) (tweakPublic pub.xBytes commitment) := by
  rw [tweakPrivate_eq found, tweakPublic_eq found]
  cases tweaked : tweak pub.xBytes commitment with
  | error e =>
    rw [error_of_tweak tweaked]
    exact .unusable
  | ok t =>
    simp only [Except.bind]
    exact paired_of_scalar (Scalar.evenOf key.scalar + t)

end Tweak

theorem tweakPrivate_neg (key : PrivateKey) (commitment : Bytes) :
    tweakPrivate key.neg commitment = tweakPrivate key commitment := by
  obtain ⟨pub, found, -⟩ := key.exists_publicKey
  have first : PublicKey.xBytes ⟨pub.x, -pub.y⟩ = pub.xBytes := rfl
  rw [tweakPrivate_eq found, tweakPrivate_eq (PrivateKey.publicKey_neg found), key.evenOf_neg,
    first]

/-- The two tweaks agree in every outcome: the private key that one gives has the
point that the other gives, and the failures of the one are those of the other. -/
theorem tweakPrivate_tweakPublic_agree (key : PrivateKey) (commitment : Bytes) :
    ∃ pub, key.publicKey = .ok pub ∧
      ((∃ tweaked, tweakPrivate key commitment = .ok tweaked) ↔
        ∃ output, tweakPublic pub.xBytes commitment = .ok output) ∧
      (∀ tweaked x odd, tweakPrivate key commitment = .ok tweaked →
        tweakPublic pub.xBytes commitment = .ok (x, odd) →
        ∃ output, tweaked.publicKey = .ok output ∧ output.xBytes = x ∧
          (output.y.isOdd = true ↔ odd = true)) ∧
      (tweakPrivate key commitment = .error .invalidTweak ↔
        tweakPublic pub.xBytes commitment = .error .invalidTweak) ∧
      (tweakPrivate key commitment = .error .zeroTweakedKey ↔
        tweakPublic pub.xBytes commitment = .error (.curve .pointAtInfinity)) ∧
      (∀ e, tweakPrivate key commitment = .error e → e = .invalidTweak ∨ e = .zeroTweakedKey) ∧
      (∀ e, tweakPublic pub.xBytes commitment = .error e →
        e = .invalidTweak ∨ e = .curve .pointAtInfinity) ∧
      tweakPrivate key.neg commitment = tweakPrivate key commitment := by
  obtain ⟨pub, found, -⟩ := key.exists_publicKey
  have paired : Paired (tweakPrivate key commitment) (tweakPublic pub.xBytes commitment) :=
    paired_tweak found
  exact ⟨pub, found, paired.ok_iff, fun _ _ _ => paired.exists_of_ok, paired.error_iff.1,
    paired.error_iff.2, paired.error_cases.1, paired.error_cases.2,
    tweakPrivate_neg key commitment⟩

theorem tweakPrivate_tweakPublic_agree_greatest :
    ∃ pub tweaked output, PrivateKey.greatest.publicKey = .ok pub ∧
      tweakPrivate PrivateKey.greatest [] = .ok tweaked ∧ tweaked.publicKey = .ok output ∧
      tweakPublic pub.xBytes [] = .ok (output.xBytes, output.y.isOdd) := by
  obtain ⟨pub, found, both, agree, -⟩ := tweakPrivate_tweakPublic_agree PrivateKey.greatest []
  obtain ⟨tweaked, made⟩ : ∃ tweaked, tweakPrivate PrivateKey.greatest [] = .ok tweaked := by
    have usable : ((tweak (Point.generator.x?.getD 0).toBytes []).map
        fun t => (1 + t).isZero).toOption = some false := by decide +kernel
    rw [tweakPrivate_eq found, PrivateKey.evenOf_greatest, PrivateKey.xBytes_greatest found]
    cases value : tweak (Point.generator.x?.getD 0).toBytes [] with
    | error e =>
      rw [value] at usable
      cases usable
    | ok t =>
      rw [value] at usable
      have nonzero : (1 + t).isZero = false := Option.some.inj usable
      refine ⟨⟨1 + t, nonzero⟩, ?_⟩
      simp only [Except.bind]
      rw [PrivateKey.ofScalar, dif_pos nonzero]
      rfl
  obtain ⟨⟨x, odd⟩, given⟩ := both.mp ⟨tweaked, made⟩
  obtain ⟨output, point, rfl, parity⟩ := agree tweaked x odd made given
  rw [← Bool.eq_iff_iff] at parity
  rw [← parity] at given
  exact ⟨pub, tweaked, output, found, made, point, given⟩

end BitcoinSigning.Taproot
