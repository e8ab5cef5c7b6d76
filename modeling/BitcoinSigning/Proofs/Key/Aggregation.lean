import BitcoinSigning.Proofs.Key.EvenKey
import Mathlib.Algebra.BigOperators.Group.List.Basic
import Mathlib.Data.List.Perm.Basic
/-!
Sums of keys. Private keys are added as scalars and public keys as points, one after the
other. After each of them the point is the multiple by the scalar, also where it is infinity
or the next point once more. So in the end there are a private key and its point, or the
scalar is zero and has neither.
-/

namespace BitcoinSigning

open Point (mulGenerator)

namespace PrivateKey

variable {keys keys' : List PrivateKey}

/-- The bytes name the public key of the private key. -/
def NamedBy (key : PrivateKey) (bytes : Bytes) : Prop :=
  ∃ pub, key.publicKey = .ok pub ∧ PublicKey.decode bytes = .ok pub

theorem namedBy_encode {key : PrivateKey} {pub : PublicKey} (found : key.publicKey = .ok pub)
    {format : Point.Format} (full : format ≠ .xOnly) : key.NamedBy (pub.encode format) :=
  ⟨pub, found, PublicKey.decode_encode (onCurve_of_publicKey found) full⟩

theorem sum_eq_ofScalar (keys : List PrivateKey) : sum keys = ofScalar (keys.map scalar).sum := by
  rw [sum, List.sum_eq_foldl, List.foldl_map]
  rfl

theorem sum_eq_ok_iff {total : PrivateKey} :
    sum keys = .ok total ↔ total.scalar = (keys.map scalar).sum := by
  rw [sum_eq_ofScalar]
  constructor
  · intro found
    rcases ofScalar_cases (keys.map scalar).sum with ⟨key, -, made, form, -⟩ | ⟨failed, -⟩
    · rw [← Except.ok.inj (made.symm.trans found), form]
    · cases failed.symm.trans found
  · intro form
    rw [← form]
    exact dif_pos total.nonzero

theorem sum_perm (same : keys.Perm keys') : sum keys = sum keys' := by
  rw [sum_eq_ofScalar, sum_eq_ofScalar, (same.map scalar).sum_eq]

end PrivateKey

namespace PublicKey

variable {keys : List PrivateKey} {encodings encodings' : List Bytes}

def addEncoded (total : Point) (bytes : Bytes) : Except CurveError Point :=
  (decode bytes).map fun key => total.add key.toPoint

theorem sum_eq_foldlM (encodings : List Bytes) : sum encodings =
    (encodings.foldlM addEncoded .infinity).bind fun total => (ofPoint total).map xBytes := by
  have step : (fun total bytes => do
      let key ← decode bytes
      return total.add key.toPoint : Point → Bytes → Except CurveError Point) = addEncoded := by
    funext total bytes
    rw [addEncoded]
    cases decode bytes <;> rfl
  rw [sum, step]
  rfl

theorem addEncoded_mulGenerator {key : PrivateKey} {bytes : Bytes} (named : key.NamedBy bytes)
    (a : Scalar) :
    addEncoded (mulGenerator a) bytes = .ok (mulGenerator (a + key.scalar)) := by
  obtain ⟨pub, found, decoded⟩ := named
  rw [addEncoded, decoded, Point.mulGenerator_add, PrivateKey.publicKey_eq_ok_iff.mp found]
  rfl

/-- The sum of the points so far is the multiple by the sum of the scalars so far. -/
theorem foldlM_addEncoded (named : List.Forall₂ PrivateKey.NamedBy keys encodings) (a : Scalar) :
    encodings.foldlM addEncoded (mulGenerator a) =
      .ok (mulGenerator (a + (keys.map PrivateKey.scalar).sum)) := by
  induction named generalizing a with
  | nil =>
    rw [List.map_nil, List.sum_nil, add_zero]
    rfl
  | @cons key bytes keys encodings first _ ih =>
    rw [List.foldlM_cons, addEncoded_mulGenerator first, List.map_cons, List.sum_cons,
      ← add_assoc, ← ih]
    rfl

theorem sum_of_named (named : List.Forall₂ PrivateKey.NamedBy keys encodings) :
    sum encodings = (ofPoint (mulGenerator (keys.map PrivateKey.scalar).sum)).map xBytes := by
  rw [sum_eq_foldlM, ← Point.mulGenerator_eq_infinity_iff.mpr rfl, foldlM_addEncoded named,
    zero_add]
  simp only [Except.bind]

theorem sum_perm (named : List.Forall₂ PrivateKey.NamedBy keys encodings)
    (same : encodings.Perm encodings') : sum encodings' = sum encodings := by
  obtain ⟨keys', named', same'⟩ := List.perm_comp_forall₂ same.symm named.flip
  rw [sum_of_named named, sum_of_named named'.flip, (same'.map PrivateKey.scalar).sum_eq]

def encodeAll (choices : List (PrivateKey × Point.Format)) : Except CurveError (List Bytes) :=
  choices.mapM fun choice => choice.1.publicKey.map (encode choice.2)

theorem exists_encodeAll {choices : List (PrivateKey × Point.Format)}
    (full : ∀ choice ∈ choices, choice.2 ≠ .xOnly) :
    ∃ encodings, encodeAll choices = .ok encodings ∧
      List.Forall₂ PrivateKey.NamedBy (choices.map Prod.fst) encodings := by
  induction choices with
  | nil => exact ⟨[], rfl, .nil⟩
  | cons choice choices ih =>
    obtain ⟨first, rest⟩ := List.forall_mem_cons.mp full
    obtain ⟨encodings, encoded, named⟩ := ih rest
    obtain ⟨pub, found, -⟩ := choice.1.exists_publicKey
    refine ⟨pub.encode choice.2 :: encodings, ?_,
      .cons (PrivateKey.namedBy_encode found first) named⟩
    unfold encodeAll at encoded ⊢
    rw [List.mapM_cons, found, encoded]
    rfl

/-- The sums are a private key and its point, or they both fail. -/
theorem sum_cases (named : List.Forall₂ PrivateKey.NamedBy keys encodings) :
    (∃ total pub, PrivateKey.sum keys = .ok total ∧ total.publicKey = .ok pub ∧
      sum encodings = .ok pub.xBytes) ∨
    PrivateKey.sum keys = .error .invalidScalar ∧ sum encodings = .error .pointAtInfinity := by
  rw [PrivateKey.sum_eq_ofScalar, sum_of_named named]
  rcases PrivateKey.ofScalar_cases (keys.map PrivateKey.scalar).sum with
    ⟨total, pub, made, -, found, point⟩ | ⟨failed, infinite⟩
  · rw [point]
    exact Or.inl ⟨total, pub, made, found, rfl⟩
  · rw [infinite]
    exact Or.inr ⟨failed, rfl⟩

/-- A list of private keys and the encodings of their public keys have sums that belong
together, whatever formats are chosen and in whatever order they are added. -/
theorem sum_private_sum_public_agree (choices : List (PrivateKey × Point.Format))
    (full : ∀ choice ∈ choices, choice.2 ≠ .xOnly) :
    ∃ encodings, encodeAll choices = .ok encodings ∧
      (∀ total, PrivateKey.sum (choices.map Prod.fst) = .ok total →
        ∃ pub, total.publicKey = .ok pub ∧ sum encodings = .ok pub.xBytes) ∧
      (PrivateKey.sum (choices.map Prod.fst) = .error .invalidScalar →
        sum encodings = .error .pointAtInfinity) ∧
      (∀ total, PrivateKey.sum (choices.map Prod.fst) = .ok total ↔
        total.scalar = (choices.map fun choice => choice.1.scalar).sum) ∧
      (∀ e, PrivateKey.sum (choices.map Prod.fst) = .error e → e = .invalidScalar) ∧
      (∀ keys, (choices.map Prod.fst).Perm keys →
        PrivateKey.sum keys = PrivateKey.sum (choices.map Prod.fst)) ∧
      ∀ encodings', encodings.Perm encodings' → sum encodings' = sum encodings := by
  obtain ⟨encodings, encoded, named⟩ := exists_encodeAll full
  refine ⟨encodings, encoded, ?_, ?_, ?_, ?_, ?_, fun _ => sum_perm named⟩
  · intro total made
    rcases sum_cases named with ⟨total', pub, made', found, summed⟩ | ⟨failed, -⟩
    · obtain rfl := Except.ok.inj (made'.symm.trans made)
      exact ⟨pub, found, summed⟩
    · cases failed.symm.trans made
  · intro failed
    rcases sum_cases named with ⟨_, _, made, -⟩ | ⟨-, infinite⟩
    · cases made.symm.trans failed
    · exact infinite
  · intro total
    rw [PrivateKey.sum_eq_ok_iff, List.map_map]
    rfl
  · intro e failed
    rcases sum_cases named with ⟨_, _, made, -⟩ | ⟨failed', -⟩
    · cases made.symm.trans failed
    · exact (Except.error.inj (failed'.symm.trans failed)).symm
  · intro keys same
    exact (PrivateKey.sum_perm same).symm

/-- A key and its opposite cancel. With the key once more the sum is infinity on the way, but
not in the end, and in the opposite order it is the same. -/
theorem sum_private_sum_public_agree_cancelling :
    (∃ encodings, encodeAll [(.greatest, .compressed), (PrivateKey.greatest.neg, .uncompressed)] =
        .ok encodings ∧ sum encodings = .error .pointAtInfinity) ∧
    ∃ encodings, encodeAll [(.greatest, .compressed), (PrivateKey.greatest.neg, .uncompressed),
        (.greatest, .uncompressed)] = .ok encodings ∧
      PrivateKey.sum [.greatest, PrivateKey.greatest.neg, .greatest] = .ok .greatest ∧
      sum encodings = .ok (Point.generator.x?.getD 0).toBytes ∧
      sum encodings.reverse = sum encodings := by
  constructor
  · obtain ⟨encodings, encoded, -, infinite, -⟩ := sum_private_sum_public_agree
      [(.greatest, .compressed), (PrivateKey.greatest.neg, .uncompressed)] (by decide)
    exact ⟨encodings, encoded, infinite (by decide)⟩
  · obtain ⟨encodings, encoded, agree, -, made, -, -, permuted⟩ := sum_private_sum_public_agree
      [(.greatest, .compressed), (PrivateKey.greatest.neg, .uncompressed),
        (.greatest, .uncompressed)] (by decide)
    have total := (made .greatest).mpr (by decide)
    obtain ⟨pub, found, summed⟩ := agree .greatest total
    rw [PrivateKey.xBytes_greatest found] at summed
    exact ⟨encodings, encoded, total, summed, permuted _ encodings.reverse_perm.symm⟩

end PublicKey

end BitcoinSigning
