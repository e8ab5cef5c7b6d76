import BitcoinSigning.Proofs.Key.EvenKey
import BitcoinSigning.Proofs.Signature.NonceSearch
import BitcoinSigning.Signature.Ecdsa
/-!
Signing with ECDSA and what it promises: errors do not happen, the signature is
the one of the first nonce that gives one, and it verifies. Verification adds two
multiples that the signature's numbers split the nonce's multiple into.
-/

namespace BitcoinSigning

namespace Scalar

theorem ofBytesNonzero?_eq_some_iff {bytes : Bytes32} {a : Scalar} :
    ofBytesNonzero? bytes = some a ↔ bytes = a.toBytes ∧ a ≠ 0 := by
  rw [ofBytesNonzero?, Option.filter_eq_some_iff, Bool.not_eq_true', Residue.isZero_eq_false]
  exact and_congr_left' Residue.ofBytes?_eq_some_iff

theorem ofBigEndian_toBytes_mem {a : Scalar} (nonzero : a ≠ 0) :
    Bytes.ofBigEndian a.toBytes.bytes ∈ Set.Ico 1 groupOrder.value.toNat := by
  rw [Residue.ofBigEndian_toBytes]
  exact ⟨Nat.one_le_iff_ne_zero.mpr (Residue.toNat_ne_zero nonzero), a.toNat_lt⟩

end Scalar

namespace EcdsaSignature

/-! The two numbers of a signature. -/

def rOf (nonce : Scalar) : Scalar :=
  (Point.mulGenerator nonce).x?.elim 0 fun x => (x.toNat : Scalar)

/-- The number that solves the equation of verification. -/
def sOf (key : PrivateKey) (digest nonce : Scalar) : Scalar :=
  nonce⁻¹ * (digest + rOf nonce * key.scalar)

/-- Whether the nonce gives a signature. -/
def Usable (key : PrivateKey) (digest nonce : Scalar) : Prop :=
  rOf nonce ≠ 0 ∧ sOf key digest nonce ≠ 0

def ofNonce (key : PrivateKey) (digest nonce : Scalar) : EcdsaSignature :=
  ⟨(rOf nonce).toBytes, (sOf key digest nonce).toBytes⟩

variable {key : PrivateKey} {digest nonce : Scalar}

theorem ofBytesReduced_toBytes_eq (x : FieldElement) :
    Scalar.ofBytesReduced x.toBytes = (x.toNat : Scalar) := by
  rw [Scalar.ofBytesReduced, Residue.ofBytesReduced_eq, Residue.toBytes,
    Nat256.ofBigEndian_toBytes]
  rfl

theorem rOf_eq {x y : FieldElement} (value : Point.mulGenerator nonce = .affine x y) :
    rOf nonce = (x.toNat : Scalar) := by
  rw [rOf, value, Point.x?, Option.elim_some]

/-! One nonce. -/

open Classical in
theorem signWith_eq (nonzero : nonce ≠ 0) :
    signWith key digest nonce =
      .ok (if Usable key digest nonce then some (ofNonce key digest nonce) else none) := by
  obtain ⟨x, y, value, -⟩ := Point.exists_affine_of_mulGenerator nonzero
  have r := rOf_eq value
  unfold signWith
  rw [if_neg (mt nonce.isZero_eq_true.mp nonzero), value, Point.x?, Residue.invert_eq nonzero]
  simp only [ofBytesReduced_toBytes_eq, ← r, Residue.isZero_eq_true]
  by_cases zeroR : rOf nonce = 0
  · have unusable : ¬Usable key digest nonce := fun usable => usable.1 zeroR
    rw [if_pos zeroR, if_neg unusable]
  rw [if_neg zeroR]
  change (if sOf key digest nonce = 0 then _ else _) = _
  by_cases zeroS : sOf key digest nonce = 0
  · have unusable : ¬Usable key digest nonce := fun usable => usable.2 zeroS
    rw [if_pos zeroS, if_neg unusable]
  · have usable : Usable key digest nonce := ⟨zeroR, zeroS⟩
    rw [if_neg zeroS, if_pos usable]
    rfl

theorem attempt_eq_none_iff (nonzero : nonce ≠ 0) :
    attempt key digest nonce = none ↔ ¬Usable key digest nonce := by
  rw [attempt, signWith_eq nonzero]
  by_cases usable : Usable key digest nonce
  · rw [if_pos usable]
    exact iff_of_false (fun none => nomatch none) fun unusable => unusable usable
  · rw [if_neg usable]
    exact iff_of_true rfl usable

theorem attempt_eq_some_iff (nonzero : nonce ≠ 0) {result : Except SignError EcdsaSignature} :
    attempt key digest nonce = some result ↔
      Usable key digest nonce ∧ result = .ok (ofNonce key digest nonce) := by
  rw [attempt, signWith_eq nonzero]
  by_cases usable : Usable key digest nonce
  · rw [if_pos usable, and_iff_right usable]
    exact Option.some_inj.trans eq_comm
  · rw [if_neg usable]
    exact iff_of_false (fun none => nomatch none) fun both => usable both.1

/-! Verification. -/

/-- The two multiples are the parts of a multiple by the nonce. -/
theorem verifyScalars_of_usable (nonzero : nonce ≠ 0) (usable : Usable key digest nonce)
    {pub : PublicKey} (form : pub.toPoint = Point.mulGenerator key.scalar) :
    verifyScalars pub digest (rOf nonce) (sOf key digest nonce) = true := by
  obtain ⟨x, y, value, -⟩ := Point.exists_affine_of_mulGenerator nonzero
  have r := rOf_eq value
  have total : digest + rOf nonce * key.scalar = nonce * sOf key digest nonce := by
    rw [sOf, mul_inv_cancel_left₀ nonzero]
  have parts : digest * (sOf key digest nonce)⁻¹ +
      rOf nonce * (sOf key digest nonce)⁻¹ * key.scalar = nonce := by
    calc digest * (sOf key digest nonce)⁻¹ + rOf nonce * (sOf key digest nonce)⁻¹ * key.scalar
        = (digest + rOf nonce * key.scalar) * (sOf key digest nonce)⁻¹ := by ring
      _ = nonce * sOf key digest nonce * (sOf key digest nonce)⁻¹ := by rw [total]
      _ = nonce := mul_inv_cancel_right₀ usable.2 nonce
  rw [verifyScalars, Residue.invert_eq usable.2]
  simp only [form, Point.mulAddGenerator_mulGenerator, parts, value, Point.x?]
  rw [ofBytesReduced_toBytes_eq, ← r, beq_self_eq_true]

theorem verify_ofNonce (nonzero : nonce ≠ 0) {digest : Bytes32}
    (usable : Usable key (Scalar.ofBytesReduced digest) nonce) {pub : PublicKey}
    (form : pub.toPoint = Point.mulGenerator key.scalar) :
    (ofNonce key (Scalar.ofBytesReduced digest) nonce).verify pub digest = true := by
  have r := Scalar.ofBytesNonzero?_eq_some_iff.mpr ⟨rfl, usable.1⟩
  have s := Scalar.ofBytesNonzero?_eq_some_iff.mpr ⟨rfl, usable.2⟩
  rw [verify, ofNonce, r, s]
  exact verifyScalars_of_usable nonzero usable form

theorem verifyEncoded_encode {signature : EcdsaSignature} {pub : PublicKey}
    (on : pub.toPoint.OnCurve) {format : Point.Format} (full : format ≠ .xOnly)
    (digest : Bytes32) :
    signature.verifyEncoded (pub.encode format) digest = signature.verify pub digest := by
  rw [verifyEncoded, PublicKey.decode_encode on full]

/-! The search for a nonce. -/

section Sign

variable (key : PrivateKey) (digest : Bytes32)

theorem ne_zero_of_mem_take {g : NonceGenerator} {count : Nat} {nonces : List Scalar}
    (taken : g.take count = some nonces) (member : nonce ∈ nonces) : nonce ≠ 0 := by
  obtain ⟨n, usable⟩ := NonceGenerator.exists_of_mem_take taken member
  exact (Scalar.ofBytesNonzero?_eq_some_iff.mp usable).2

/-- Signing either goes on for ever, over nonces none of which is usable, or stops
at the first one that is. -/
theorem sign_cases :
    (sign key digest = .error .noNonce ∧ ∀ count nonces,
      (NonceGenerator.seed key.scalar digest).take count = some nonces →
        ∀ k ∈ nonces, ¬Usable key (Scalar.ofBytesReduced digest) k) ∨
    ∃ earlier nonce, (NonceGenerator.seed key.scalar digest).take (earlier.length + 1) =
        some (earlier ++ [nonce]) ∧
      (∀ k ∈ earlier, ¬Usable key (Scalar.ofBytesReduced digest) k) ∧
      Usable key (Scalar.ofBytesReduced digest) nonce ∧
      sign key digest = .ok (ofNonce key (Scalar.ofBytesReduced digest) nonce) := by
  have uses (c : Bytes32) :
      (Scalar.ofBytesNonzero? c).bind (attempt key (Scalar.ofBytesReduced digest)) =
        (Scalar.ofBytesNonzero? c).bind (attempt key (Scalar.ofBytesReduced digest)) := rfl
  rw [sign]
  cases search : (NonceGenerator.seed key.scalar digest).searchAll fun c =>
      (Scalar.ofBytesNonzero? c).bind (attempt key (Scalar.ofBytesReduced digest)) with
  | none =>
    refine Or.inl ⟨rfl, fun count nonces taken k member => ?_⟩
    rw [← attempt_eq_none_iff (ne_zero_of_mem_take taken member)]
    exact (NonceGenerator.searchAll_eq_none_iff_take uses).mp search count nonces taken k member
  | some found =>
    obtain ⟨earlier, nonce, taken, unused, used⟩ :=
      NonceGenerator.exists_take_of_searchAll uses search
    have nonzero {k : Scalar} (member : k ∈ earlier ++ [nonce]) : k ≠ 0 :=
      ne_zero_of_mem_take taken member
    have last := nonzero (List.mem_append_right earlier List.mem_cons_self)
    obtain ⟨usable, result⟩ := (attempt_eq_some_iff last).mp used
    refine Or.inr ⟨earlier, nonce, taken, fun k member => ?_, usable, result⟩
    rw [← attempt_eq_none_iff (nonzero (List.mem_append_left [nonce] member))]
    exact unused k member

theorem signWith_ne_error {count : Nat} {nonces : List Scalar}
    (taken : (NonceGenerator.seed key.scalar digest).take count = some nonces)
    (member : nonce ∈ nonces) :
    nonce.isZero = false ∧ Point.mulGenerator nonce ≠ .infinity ∧ nonce.invert ≠ none ∧
      ∀ e, signWith key (Scalar.ofBytesReduced digest) nonce ≠ .error e := by
  have nonzero := ne_zero_of_mem_take taken member
  obtain ⟨x, y, value, -⟩ := Point.exists_affine_of_mulGenerator nonzero
  rw [value, Residue.invert_eq nonzero, signWith_eq nonzero]
  refine ⟨nonce.isZero_eq_false.mpr nonzero, Point.noConfusion, Option.some_ne_none _, ?_⟩
  intro e failed
  exact nomatch failed

theorem error_eq_noNonce {e : SignError} (failed : sign key digest = .error e) : e = .noNonce := by
  rcases sign_cases key digest with ⟨endless, -⟩ | ⟨_, _, -, -, -, made⟩
  · exact (Except.error.inj (endless.symm.trans failed)).symm
  · exact nomatch made.symm.trans failed

theorem verify_of_sign {signature : EcdsaSignature} (made : sign key digest = .ok signature)
    {pub : PublicKey} (found : key.publicKey = .ok pub) :
    pub.toPoint.OnCurve ∧ signature.verify pub digest = true := by
  obtain ⟨pub', found', form, on⟩ := key.exists_publicKey
  obtain rfl : pub' = pub := Except.ok.inj (found'.symm.trans found)
  rcases sign_cases key digest with ⟨endless, -⟩ | ⟨earlier, nonce, taken, -, usable, made'⟩
  · exact nomatch endless.symm.trans made
  · have last : nonce ∈ earlier ++ [nonce] := List.mem_append_right earlier List.mem_cons_self
    rw [← Except.ok.inj (made'.symm.trans made)]
    exact ⟨on, verify_ofNonce (ne_zero_of_mem_take taken last) usable form⟩

theorem exists_verify_of_sign {signature : EcdsaSignature}
    (made : sign key digest = .ok signature) :
    ∃ pub, key.publicKey = .ok pub ∧ signature.verify pub digest = true ∧
      signature.verifyEncoded (pub.encode .compressed) digest = true ∧
      signature.verifyEncoded (pub.encode .uncompressed) digest = true := by
  obtain ⟨pub, found, -⟩ := key.exists_publicKey
  obtain ⟨on, valid⟩ := verify_of_sign key digest made found
  refine ⟨pub, found, valid, ?_, ?_⟩
  · rw [verifyEncoded_encode on (by decide), valid]
  · rw [verifyEncoded_encode on (by decide), valid]

/-- A signature is made with the first usable nonce of the key's sequence, its
numbers are in range, and it verifies under each form of the public key. There is
no error: no nonce of the sequence leads to one, and the search fails only if it
would never end. -/
theorem sign_spec :
    (∀ e, sign key digest = .error e → e = .noNonce) ∧
    (sign key digest = .error .noNonce ↔ ∀ count nonces,
      (NonceGenerator.seed key.scalar digest).take count = some nonces →
        ∀ k ∈ nonces, ¬Usable key (Scalar.ofBytesReduced digest) k) ∧
    (∀ count nonces, (NonceGenerator.seed key.scalar digest).take count = some nonces →
      ∀ k ∈ nonces, k.isZero = false ∧ Point.mulGenerator k ≠ .infinity ∧ k.invert ≠ none ∧
        ∀ e, signWith key (Scalar.ofBytesReduced digest) k ≠ .error e) ∧
    ∀ signature, sign key digest = .ok signature →
      (∃ earlier nonce, (NonceGenerator.seed key.scalar digest).take (earlier.length + 1) =
          some (earlier ++ [nonce]) ∧
        (∀ k ∈ earlier, ¬Usable key (Scalar.ofBytesReduced digest) k) ∧
        Usable key (Scalar.ofBytesReduced digest) nonce ∧
        signature = ofNonce key (Scalar.ofBytesReduced digest) nonce) ∧
      Bytes.ofBigEndian signature.r.bytes ∈ Set.Ico 1 groupOrder.value.toNat ∧
      Bytes.ofBigEndian signature.s.bytes ∈ Set.Ico 1 groupOrder.value.toNat ∧
      ∃ pub, key.publicKey = .ok pub ∧ signature.verify pub digest = true ∧
        signature.verifyEncoded (pub.encode .compressed) digest = true ∧
        signature.verifyEncoded (pub.encode .uncompressed) digest = true := by
  refine ⟨fun e failed => error_eq_noNonce key digest failed, ?_, ?_, ?_⟩
  · rcases sign_cases key digest with
      ⟨endless, unusable⟩ | ⟨earlier, nonce, taken, -, usable, made⟩
    · exact iff_of_true endless unusable
    · have last : nonce ∈ earlier ++ [nonce] := List.mem_append_right earlier List.mem_cons_self
      refine iff_of_false ?_ ?_
      · intro endless
        exact nomatch made.symm.trans endless
      · intro unusable
        exact unusable _ _ taken nonce last usable
  · intro count nonces taken k member
    exact signWith_ne_error key digest taken member
  · intro signature made
    rcases sign_cases key digest with
      ⟨endless, -⟩ | ⟨earlier, nonce, taken, before, usable, made'⟩
    · exact nomatch endless.symm.trans made
    · obtain rfl := Except.ok.inj (made'.symm.trans made)
      exact ⟨⟨earlier, nonce, taken, before, usable, rfl⟩,
        Scalar.ofBigEndian_toBytes_mem usable.1, Scalar.ofBigEndian_toBytes_mem usable.2,
        exists_verify_of_sign key digest made⟩

end Sign

/-! A signature that is made. -/

theorem sign_of_candidate {digest : Bytes32}
    (first : Scalar.ofBytesNonzero? (NonceGenerator.seed key.scalar digest).candidate = some nonce)
    (usable : Usable key (Scalar.ofBytesReduced digest) nonce) :
    sign key digest = .ok (ofNonce key (Scalar.ofBytesReduced digest) nonce) := by
  have nonzero := (Scalar.ofBytesNonzero?_eq_some_iff.mp first).2
  have result := (attempt_eq_some_iff nonzero).mpr ⟨usable, rfl⟩
  have accepted : (Scalar.ofBytesNonzero? (NonceGenerator.seed key.scalar digest).candidate).bind
      (attempt key (Scalar.ofBytesReduced digest)) =
        some (.ok (ofNonce key (Scalar.ofBytesReduced digest) nonce)) := by
    rw [first, Option.bind_some, result]
  rw [sign, NonceGenerator.searchAll_of_accept accepted, Option.elim_some]

theorem usable_of_toNat {x y : FieldElement} (value : Point.mulGenerator nonce = .affine x y)
    (nonzero : nonce ≠ 0) (r : x.toNat % groupOrder.value.toNat ≠ 0)
    (s : (digest.toNat + x.toNat % groupOrder.value.toNat * key.scalar.toNat) %
      groupOrder.value.toNat ≠ 0) : Usable key digest nonce := by
  have toNatR : (rOf nonce).toNat = x.toNat % groupOrder.value.toNat := by
    rw [rOf_eq value, Residue.toNat_natCast]
  refine ⟨fun zero => r ?_, mul_ne_zero (inv_ne_zero nonzero) fun zero => s ?_⟩
  · rw [← toNatR, zero]
    rfl
  · rw [← toNatR, ← Nat.add_mod_mod, ← Residue.toNat_mul, ← Residue.toNat_add, zero]
    rfl

theorem exists_sign {digest : Bytes32} {x y : FieldElement}
    (first : (NonceGenerator.seed key.scalar digest).candidate = nonce.toBytes)
    (nonzero : nonce ≠ 0) (value : Point.mulGenerator nonce = .affine x y)
    (r : x.toNat % groupOrder.value.toNat ≠ 0)
    (s : ((Scalar.ofBytesReduced digest).toNat +
      x.toNat % groupOrder.value.toNat * key.scalar.toNat) % groupOrder.value.toNat ≠ 0) :
    ∃ signature, sign key digest = .ok signature := by
  have candidate := Scalar.ofBytesNonzero?_eq_some_iff.mpr ⟨first, nonzero⟩
  exact ⟨_, sign_of_candidate candidate (usable_of_toNat value nonzero r s)⟩

def keyOne : PrivateKey := ⟨Residue.one, rfl⟩

def digestOne : Bytes32 := (1 : Scalar).toBytes

def nonceOne : Scalar :=
  ⟨⟨0x10ca0643fbb795ac, 0xf234571b965fd398, 0xda3efb323dc67c96, 0x9a409dab05968059⟩, by decide⟩

theorem candidate_one :
    (NonceGenerator.seed keyOne.scalar digestOne).candidate = nonceOne.toBytes := by
  decide +kernel

theorem mulGenerator_nonceOne : Point.mulGenerator nonceOne =
    .affine
      ⟨⟨0xc36dedf4092e8898, 0xaf0c1e77fc439e65, 0x04772b6f921f0ba6, 0x6673ffad2147741f⟩, by decide⟩
      ⟨⟨0xb593407a65e513be, 0x8c2badaaa803ed4c, 0xcc5fe589d638921c, 0xf763be31befd54e9⟩,
        by decide⟩ :=
  Point.mulGenerator_of_standsFor (by decide +kernel)

theorem ofBytesReduced_digestOne : Scalar.ofBytesReduced digestOne = 1 :=
  Residue.ofBytesReduced_toBytes 1

theorem usable_one : Usable keyOne (Scalar.ofBytesReduced digestOne) nonceOne := by
  rw [ofBytesReduced_digestOne]
  exact usable_of_toNat mulGenerator_nonceOne (by decide) (by decide +kernel) (by decide +kernel)

theorem sign_one : ∃ signature, sign keyOne digestOne = .ok signature := by
  have nonzero : nonceOne ≠ 0 := by decide
  have first := Scalar.ofBytesNonzero?_eq_some_iff.mpr ⟨candidate_one, nonzero⟩
  exact ⟨_, sign_of_candidate first usable_one⟩

theorem sign_spec_one : ∃ signature pub, sign keyOne digestOne = .ok signature ∧
    keyOne.publicKey = .ok pub ∧
    signature.verifyEncoded (pub.encode .compressed) digestOne = true := by
  obtain ⟨signature, made⟩ := sign_one
  obtain ⟨-, -, -, pub, found, -, valid, -⟩ :=
    (sign_spec keyOne digestOne).2.2.2 signature made
  exact ⟨signature, pub, made, found, valid⟩

end EcdsaSignature

end BitcoinSigning
