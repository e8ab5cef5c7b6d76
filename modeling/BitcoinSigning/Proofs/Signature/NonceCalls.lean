import BitcoinSigning.Proofs.Signature.NonceSequence
/-!
A generator as an iterator that puts off its update: each call goes through candidates until one
is usable, and updates before every candidate but the very first one of all calls. Whoever calls
it, signing for one, sees the nonces of the sequence, and all calls together go through its
candidates one by one.
-/

namespace BitcoinSigning

namespace NonceGenerator

def candidates (g : NonceGenerator) (count : Nat) : List Bytes32 :=
  (List.range count).map g.candidateAt

theorem candidates_add (g : NonceGenerator) (a b : Nat) :
    g.candidates (a + b) = g.candidates a ++ (advance^[a] g).candidates b := by
  rw [candidates, List.range_add, List.map_append, List.map_map]
  refine congrArg (g.candidates a ++ ·) (List.map_congr_left fun i _ => ?_)
  rw [Function.comp_apply, Nat.add_comm, candidateAt_add]

/-- The two strings, and whether there was a candidate, which is then the second one. -/
structure Cursor where
  key : Bytes32
  value : Bytes32
  started : Bool

namespace Cursor

variable {c middle after : Cursor} {drawn drawn' : List Bytes32} {nonce : Scalar}
  {nonces : List Scalar}

def new (privateKey : Scalar) (digest : Bytes32) : Cursor :=
  ⟨(seed privateKey digest).key, (seed privateKey digest).value, false⟩

def pass (c : Cursor) : Cursor :=
  let key := if c.started then hmacSha256 c.key (c.value.bytes ++ [0]) else c.key
  let value := if c.started then hmacSha256 key c.value.bytes else c.value
  ⟨key, hmacSha256 key value.bytes, true⟩

/-- A call that comes to an end, with the candidates that it goes through. -/
inductive Yields : Cursor → List Bytes32 → Scalar → Cursor → Prop
  | accepted {c : Cursor} {nonce : Scalar}
    (usable : Scalar.ofBytesNonzero? c.pass.value = some nonce) :
    Yields c [c.pass.value] nonce c.pass
  | rejected {c after : Cursor} {drawn : List Bytes32} {nonce : Scalar}
    (unusable : Scalar.ofBytesNonzero? c.pass.value = none)
    (later : Yields c.pass drawn nonce after) : Yields c (c.pass.value :: drawn) nonce after

inductive Calls : Cursor → List Bytes32 → List Scalar → Cursor → Prop
  | none (c : Cursor) : Calls c [] [] c
  | next {c middle after : Cursor} {drawn drawn' : List Bytes32} {nonce : Scalar}
    {nonces : List Scalar} (first : Yields c drawn nonce middle)
    (others : Calls middle drawn' nonces after) :
    Calls c (drawn ++ drawn') (nonce :: nonces) after

/-! One pass. -/

def pending (c : Cursor) : NonceGenerator :=
  if c.started then stir ⟨c.key, c.value⟩ [0] else ⟨c.key, c.value⟩

theorem pending_new (privateKey : Scalar) (digest : Bytes32) :
    (new privateKey digest).pending = seed privateKey digest := rfl

theorem pass_eq (c : Cursor) : c.pass = ⟨c.pending.key, c.pending.candidate, true⟩ := by
  obtain ⟨key, value, started⟩ := c
  cases started with
  | false => rfl
  | true => rfl

theorem value_pass (c : Cursor) : c.pass.value = c.pending.candidate := by
  rw [pass_eq]

theorem pending_pass (c : Cursor) : c.pass.pending = c.pending.advance := by
  rw [pass_eq]
  rfl

/-! What calls go through. -/

/-- The candidates are those that come next, each of them once, and the cursor is left where they
end. -/
structure Follows (c : Cursor) (drawn : List Bytes32) (after : Cursor) : Prop where
  drawn_eq : drawn = c.pending.candidates drawn.length
  pending_eq : after.pending = advance^[drawn.length] c.pending

theorem Follows.refl (c : Cursor) : Follows c [] c := ⟨rfl, rfl⟩

theorem follows_pass (c : Cursor) : Follows c [c.pass.value] c.pass :=
  ⟨congrArg ([·]) c.value_pass, c.pending_pass⟩

theorem Follows.append (first : Follows c drawn middle) (others : Follows middle drawn' after) :
    Follows c (drawn ++ drawn') after where
  drawn_eq := by
    rw [List.length_append, candidates_add, ← first.drawn_eq, ← first.pending_eq,
      ← others.drawn_eq]
  pending_eq := by
    rw [others.pending_eq, first.pending_eq, ← Function.iterate_add_apply, List.length_append,
      Nat.add_comm]

theorem Yields.follows (yields : Yields c drawn nonce after) : Follows c drawn after := by
  induction yields with
  | @accepted c _ _ => exact c.follows_pass
  | @rejected c _ _ _ _ _ ih => exact c.follows_pass.append ih

theorem Calls.follows (calls : Calls c drawn nonces after) : Follows c drawn after := by
  induction calls with
  | none c => exact Follows.refl c
  | next first _ ih => exact first.follows.append ih

theorem Yields.filterMap_drawn (yields : Yields c drawn nonce after) :
    drawn.filterMap Scalar.ofBytesNonzero? = [nonce] := by
  induction yields with
  | accepted usable => rw [List.filterMap_cons_some usable, List.filterMap_nil]
  | rejected unusable _ ih => rw [List.filterMap_cons_none unusable, ih]

theorem Calls.filterMap_drawn (calls : Calls c drawn nonces after) :
    drawn.filterMap Scalar.ofBytesNonzero? = nonces := by
  induction calls with
  | none => exact List.filterMap_nil
  | next first _ ih =>
    rw [List.filterMap_append, first.filterMap_drawn, ih, List.singleton_append]

/-! Calls are the steps of the generator. -/

theorem Yields.next_pending (yields : Yields c drawn nonce after) :
    c.pending.next = some (nonce, after.pending) := by
  induction yields with
  | @accepted c _ usable =>
    rw [value_pass] at usable
    rw [pending_pass]
    exact next_of_accept usable
  | @rejected c _ _ _ unusable _ ih =>
    rw [value_pass] at unusable
    rw [pending_pass] at ih
    exact (next_of_reject unusable).trans ih

theorem exists_yields {rest : NonceGenerator} (found : c.pending.next = some (nonce, rest)) :
    ∃ drawn after, Yields c drawn nonce after ∧ after.pending = rest := by
  have ends := ends_of_searchAll found
  -- The induction is on the end of the search, and the cursor moves along with the generator.
  generalize start : c.pending = g at ends found
  induction ends generalizing c with
  | accepted first =>
    obtain ⟨rfl, rfl⟩ :=
      Prod.mk.inj (Option.some.inj ((next_of_accept first).symm.trans found))
    rw [← start, ← value_pass] at first
    exact ⟨_, _, .accepted first, by rw [pending_pass, start]⟩
  | rejected first _ ih =>
    have further := (next_of_reject first).symm.trans found
    obtain ⟨drawn, after, yields, rfl⟩ := ih (by rw [pending_pass, start]) further
    rw [← start, ← value_pass] at first
    exact ⟨_, after, .rejected first yields, rfl⟩

theorem Calls.take_pending (calls : Calls c drawn nonces after) :
    c.pending.take nonces.length = some nonces := by
  induction calls with
  | none => rfl
  | next first _ ih =>
    exact take_succ_eq_some_iff.mpr ⟨_, _, _, first.next_pending, ih, rfl⟩

theorem exists_calls {count : Nat} (taken : c.pending.take count = some nonces) :
    ∃ drawn after, Calls c drawn nonces after ∧ nonces.length = count := by
  induction count generalizing c nonces with
  | zero =>
    rw [← Option.some.inj taken]
    exact ⟨[], c, .none c, rfl⟩
  | succ count ih =>
    obtain ⟨first, rest, others, next, takenRest, rfl⟩ := take_succ_eq_some_iff.mp taken
    obtain ⟨drawn, middle, yields, rfl⟩ := exists_yields next
    obtain ⟨drawn', after, calls, rfl⟩ := ih takenRest
    exact ⟨drawn ++ drawn', after, .next yields calls, rfl⟩

theorem take_pending_eq_some_iff {count : Nat} :
    c.pending.take count = some nonces ↔
      ∃ drawn after, Calls c drawn nonces after ∧ nonces.length = count := by
  constructor
  · exact exists_calls
  · rintro ⟨drawn, after, calls, rfl⟩
    exact calls.take_pending

end Cursor

end NonceGenerator

/-! Signing. -/

namespace EcdsaSignature

open NonceGenerator

variable {key : PrivateKey} {digest : Scalar} {signature : EcdsaSignature} {candidate : Bytes32}

theorem bind_attempt_eq_some_iff :
    (Scalar.ofBytesNonzero? candidate).bind (attempt key digest) = some (.ok signature) ↔
      ∃ nonce, Scalar.ofBytesNonzero? candidate = some nonce ∧ Usable key digest nonce ∧
        signature = ofNonce key digest nonce := by
  rw [Option.bind_eq_some_iff]
  refine exists_congr fun nonce => and_congr_right fun scalar => ?_
  rw [attempt_eq_some_iff (Scalar.ofBytesNonzero?_eq_some_iff.mp scalar).2]
  exact and_congr_right fun _ => ⟨Except.ok.inj, congrArg Except.ok⟩

theorem bind_attempt_eq_none_iff :
    (Scalar.ofBytesNonzero? candidate).bind (attempt key digest) = none ↔
      ∀ nonce, Scalar.ofBytesNonzero? candidate = some nonce → ¬Usable key digest nonce := by
  rw [Option.bind_eq_none_iff]
  refine forall_congr' fun nonce => imp_congr_right fun scalar => ?_
  exact attempt_eq_none_iff (Scalar.ofBytesNonzero?_eq_some_iff.mp scalar).2

theorem sign_eq_ok_iff (key : PrivateKey) (digest : Bytes32) (signature : EcdsaSignature) :
    sign key digest = .ok signature ↔ ∃ j nonce,
      Scalar.ofBytesNonzero? (RawNonces.candidate key.scalar digest j) = some nonce ∧
      Usable key (Scalar.ofBytesReduced digest) nonce ∧
      signature = ofNonce key (Scalar.ofBytesReduced digest) nonce ∧
      ∀ i < j, ∀ k, Scalar.ofBytesNonzero? (RawNonces.candidate key.scalar digest i) = some k →
        ¬Usable key (Scalar.ofBytesReduced digest) k := by
  have position (j : Nat) : (advance^[j] (seed key.scalar digest)).candidate =
      RawNonces.candidate key.scalar digest j := congrFun (candidateAt_seed key.scalar digest) j
  rw [sign]
  constructor
  · intro made
    cases search : (seed key.scalar digest).searchAll fun c =>
        (Scalar.ofBytesNonzero? c).bind (attempt key (Scalar.ofBytesReduced digest)) with
    | none =>
      rw [search] at made
      cases made
    | some found =>
      rw [search, Option.elim_some] at made
      obtain ⟨result, rest⟩ := found
      obtain rfl : result = .ok signature := made
      obtain ⟨j, before, accepted, -⟩ := searchAll_eq_some_iff.mp search
      obtain ⟨nonce, scalar, usable, form⟩ := bind_attempt_eq_some_iff.mp accepted
      refine ⟨j, nonce, position j ▸ scalar, usable, form, fun i few => ?_⟩
      rw [← position]
      exact bind_attempt_eq_none_iff.mp (before i few)
  · rintro ⟨j, nonce, scalar, usable, form, before⟩
    have found : (seed key.scalar digest).searchAll (fun c =>
        (Scalar.ofBytesNonzero? c).bind (attempt key (Scalar.ofBytesReduced digest))) =
          some (.ok signature, advance^[j + 1] (seed key.scalar digest)) := by
      refine searchAll_eq_some_iff.mpr ⟨j, fun i few => ?_, ?_, rfl⟩
      · rw [position]
        exact bind_attempt_eq_none_iff.mpr (before i few)
      · rw [position]
        exact bind_attempt_eq_some_iff.mpr ⟨nonce, scalar, usable, form⟩
    rw [found, Option.elim_some]

theorem sign_congr (key : PrivateKey) {digest digest' : Bytes32}
    (same : Scalar.ofBytesReduced digest = Scalar.ofBytesReduced digest') :
    sign key digest = sign key digest' := by
  rw [sign, sign, same, seed_congr key.scalar same]

end EcdsaSignature

namespace NonceGenerator

open RawNonces (InRange countInRange)
open EcdsaSignature

/-- The nonces are those that the iterator yields, whose calls go through the candidates of
RFC 6979 from the first one on, leave out none and take none twice. So a nonce with so many before
it is the candidate in range with so many before it, and signing uses the first of them that gives
a signature. Digests with the same remainder by the order have the same sequence and the same
signatures. -/
theorem take_seed_spec (privateKey : Scalar) (digest : Bytes32) :
    (∀ count nonces, (seed privateKey digest).take count = some nonces ↔
      ∃ drawn after, Cursor.Calls (Cursor.new privateKey digest) drawn nonces after ∧
        nonces.length = count) ∧
    (∀ drawn nonces after, Cursor.Calls (Cursor.new privateKey digest) drawn nonces after →
      drawn = (List.range drawn.length).map (RawNonces.candidate privateKey digest) ∧
      drawn.filterMap Scalar.ofBytesNonzero? = nonces) ∧
    (∀ n nonce, (∃ nonces, (seed privateKey digest).take (n + 1) = some nonces ∧
        nonces[n]? = some nonce) ↔
      ∃ j, InRange (RawNonces.candidate privateKey digest j) ∧
        Bytes.ofBigEndian (RawNonces.candidate privateKey digest j).bytes = nonce.toNat ∧
        countInRange (RawNonces.candidate privateKey digest) j = n) ∧
    (∀ key signature, sign key digest = .ok signature ↔ ∃ j nonce,
      Scalar.ofBytesNonzero? (RawNonces.candidate key.scalar digest j) = some nonce ∧
      Usable key (Scalar.ofBytesReduced digest) nonce ∧
      signature = ofNonce key (Scalar.ofBytesReduced digest) nonce ∧
      ∀ i < j, ∀ k, Scalar.ofBytesNonzero? (RawNonces.candidate key.scalar digest i) = some k →
        ¬Usable key (Scalar.ofBytesReduced digest) k) ∧
    ∀ digest' : Bytes32, Bytes.ofBigEndian digest.bytes % groupOrder.value.toNat =
        Bytes.ofBigEndian digest'.bytes % groupOrder.value.toNat →
      RawNonces.candidate privateKey digest = RawNonces.candidate privateKey digest' ∧
      seed privateKey digest = seed privateKey digest' ∧
      ∀ key : PrivateKey, sign key digest = sign key digest' := by
  refine ⟨fun count nonces => ?_, fun drawn nonces after calls => ?_, fun n nonce => ?_, ?_, ?_⟩
  · rw [← Cursor.pending_new]
    exact Cursor.take_pending_eq_some_iff
  · have followed := calls.follows.drawn_eq
    rw [candidates, Cursor.pending_new, candidateAt_seed] at followed
    exact ⟨followed, calls.filterMap_drawn⟩
  · rw [← nth?_eq_some_iff, nth?_eq_some_iff_candidateAt, candidateAt_seed]
    simp only [Scalar.ofBytesNonzero?_eq_some_iff_inRange, and_assoc]
  · exact fun key signature => sign_eq_ok_iff key digest signature
  · intro digest' same
    have reduced := Scalar.ofBytesReduced_congr same
    refine ⟨?_, seed_congr privateKey reduced, fun key => sign_congr key reduced⟩
    rw [← candidateAt_seed, ← candidateAt_seed, seed_congr privateKey reduced]

def digestPastOrder : Bytes32 :=
  ⟨Bytes.bigEndian 32 (groupOrder.value.toNat + 1), Bytes.length_bigEndian 32 _⟩

theorem take_seed_spec_one :
    (∃ drawn after, Cursor.Calls (Cursor.new keyOne.scalar digestOne) drawn [nonceOne] after) ∧
    digestOne ≠ digestPastOrder ∧ sign keyOne digestOne = sign keyOne digestPastOrder := by
  obtain ⟨calls, -, -, -, classes⟩ := take_seed_spec keyOne.scalar digestOne
  refine ⟨?_, by decide, (classes digestPastOrder (by decide +kernel)).2.2 keyOne⟩
  have first := Scalar.ofBytesNonzero?_eq_some_iff.mpr ⟨candidate_one, by decide⟩
  have taken : (seed keyOne.scalar digestOne).take 1 = some [nonceOne] :=
    take_succ_of_accept first
  obtain ⟨drawn, after, yielded, -⟩ := (calls 1 [nonceOne]).mp taken
  exact ⟨drawn, after, yielded⟩

end NonceGenerator

end BitcoinSigning
