import BitcoinSigning.Proofs.Modular.Canonical
import BitcoinSigning.Proofs.Signature.EcdsaSigning
import Mathlib.Data.Nat.Count
/-!
The nonces of a key and a digest are those of RFC 6979: the elements in range of its sequence of
candidates, in their order. The sequence is written down here a second time, as it stands there,
and the generator is proved to follow it.
-/

namespace BitcoinSigning

/-! The sequence as section 3.2 of RFC 6979 has it. -/

namespace RawNonces

/-- The octets of a number below the order, `int2octets` there. -/
def octets (number : Nat) : Bytes := Bytes.bigEndian 32 number

/-- The octets of a digest, `bits2octets` there. -/
def digestOctets (digest : Bytes32) : Bytes :=
  octets (Bytes.ofBigEndian digest.bytes % groupOrder.value.toNat)

theorem length_ones : (List.replicate 32 (1 : UInt8)).length = 32 := List.length_replicate

/-- K and V after the steps b to g. -/
def seed (privateKey : Scalar) (digest : Bytes32) : Bytes32 × Bytes32 :=
  let v : Bytes32 := ⟨List.replicate 32 1, length_ones⟩
  let k : Bytes32 := Bytes32.zero
  let k := hmacSha256 k (v.bytes ++ [0] ++ octets privateKey.toNat ++ digestOctets digest)
  let v := hmacSha256 k v.bytes
  let k := hmacSha256 k (v.bytes ++ [1] ++ octets privateKey.toNat ++ digestOctets digest)
  let v := hmacSha256 k v.bytes
  (k, v)

/-- T for a given K and V. -/
def output (state : Bytes32 × Bytes32) : Bytes32 := hmacSha256 state.1 state.2.bytes

def update (state : Bytes32 × Bytes32) : Bytes32 × Bytes32 :=
  let t := output state
  let k := hmacSha256 state.1 (t.bytes ++ [0])
  (k, hmacSha256 k t.bytes)

def state (privateKey : Scalar) (digest : Bytes32) : Nat → Bytes32 × Bytes32
  | 0 => seed privateKey digest
  | j + 1 => update (state privateKey digest j)

def candidate (privateKey : Scalar) (digest : Bytes32) (j : Nat) : Bytes32 :=
  output (state privateKey digest j)

def InRange (candidate : Bytes32) : Prop :=
  1 ≤ Bytes.ofBigEndian candidate.bytes ∧
    Bytes.ofBigEndian candidate.bytes < groupOrder.value.toNat

instance : DecidablePred InRange := fun _ => inferInstanceAs (Decidable (_ ∧ _))

def countInRange (sequence : Nat → Bytes32) (j : Nat) : Nat :=
  Nat.count (fun i => InRange (sequence i)) j

end RawNonces

namespace Scalar

open RawNonces (InRange)

variable {bytes : Bytes32}

theorem ofBytesNonzero?_eq_some_iff_inRange {a : Scalar} :
    ofBytesNonzero? bytes = some a ↔ InRange bytes ∧ Bytes.ofBigEndian bytes.bytes = a.toNat := by
  constructor
  · intro usable
    obtain ⟨rfl, nonzero⟩ := ofBytesNonzero?_eq_some_iff.mp usable
    exact ⟨ofBigEndian_toBytes_mem nonzero, a.ofBigEndian_toBytes⟩
  · rintro ⟨⟨positive, -⟩, spelled⟩
    refine ofBytesNonzero?_eq_some_iff.mpr ⟨?_, ?_⟩
    · exact Residue.ofBytes?_eq_some_iff.mp (Residue.ofBytes?_eq_some_iff_toNat.mpr spelled.symm)
    · rintro rfl
      rw [spelled] at positive
      exact absurd positive (Nat.not_succ_le_zero 0)

theorem exists_ofBytesNonzero?_of_inRange (inside : InRange bytes) :
    ∃ a, ofBytesNonzero? bytes = some a := by
  have spelled := Residue.toNat_natCast (m := groupOrder) (Bytes.ofBigEndian bytes.bytes)
  rw [Nat.mod_eq_of_lt inside.2] at spelled
  exact ⟨_, ofBytesNonzero?_eq_some_iff_inRange.mpr ⟨inside, spelled.symm⟩⟩

theorem ofBytesNonzero?_eq_none_iff_not_inRange :
    ofBytesNonzero? bytes = none ↔ ¬InRange bytes := by
  rw [← not_iff_not, not_not, ← ne_eq, Option.ne_none_iff_exists']
  constructor
  · rintro ⟨a, usable⟩
    exact (ofBytesNonzero?_eq_some_iff_inRange.mp usable).1
  · exact exists_ofBytesNonzero?_of_inRange

theorem ofBytesReduced_congr {digest digest' : Bytes32}
    (same : Bytes.ofBigEndian digest.bytes % groupOrder.value.toNat =
      Bytes.ofBigEndian digest'.bytes % groupOrder.value.toNat) :
    ofBytesReduced digest = ofBytesReduced digest' := by
  rw [ofBytesReduced, ofBytesReduced, ← Residue.toNat_inj, Residue.toNat_ofBytesReduced,
    Residue.toNat_ofBytesReduced, same]

end Scalar

namespace NonceGenerator

/-! The generator follows that sequence. -/

theorem seed_eq (privateKey : Scalar) (digest : Bytes32) :
    seed privateKey digest =
      ⟨(RawNonces.seed privateKey digest).1, (RawNonces.seed privateKey digest).2⟩ := by
  have secret : privateKey.toBytes.bytes = RawNonces.octets privateKey.toNat :=
    privateKey.bytes_toBytes
  have message :
      (Scalar.ofBytesReduced digest).toBytes.bytes = RawNonces.digestOctets digest := by
    rw [Residue.bytes_toBytes, Scalar.ofBytesReduced, Residue.toNat_ofBytesReduced]
    rfl
  simp only [seed, stir, RawNonces.seed, secret, message, List.append_assoc, List.cons_append,
    List.nil_append]

theorem iterate_advance_seed (privateKey : Scalar) (digest : Bytes32) (j : Nat) :
    advance^[j] (seed privateKey digest) =
      ⟨(RawNonces.state privateKey digest j).1, (RawNonces.state privateKey digest j).2⟩ := by
  induction j with
  | zero => exact seed_eq privateKey digest
  | succ j ih =>
    rw [Function.iterate_succ_apply', ih]
    rfl

def candidateAt (g : NonceGenerator) (j : Nat) : Bytes32 := (advance^[j] g).candidate

theorem candidateAt_add (g : NonceGenerator) (a b : Nat) :
    g.candidateAt (a + b) = (advance^[b] g).candidateAt a := by
  rw [candidateAt, Function.iterate_add_apply]
  rfl

theorem candidateAt_seed (privateKey : Scalar) (digest : Bytes32) :
    (seed privateKey digest).candidateAt = RawNonces.candidate privateKey digest := by
  funext j
  rw [candidateAt, iterate_advance_seed]
  rfl

theorem seed_congr (privateKey : Scalar) {digest digest' : Bytes32}
    (same : Scalar.ofBytesReduced digest = Scalar.ofBytesReduced digest') :
    seed privateKey digest = seed privateKey digest' := by
  rw [seed, seed, same]

/-! The nonces are the candidates in range. -/

section Nth

open RawNonces (InRange countInRange)

variable {g : NonceGenerator} {nonce : Scalar} {n : Nat}

theorem countInRange_succ_of_inRange (inside : InRange g.candidate) (j : Nat) :
    countInRange g.candidateAt (j + 1) = countInRange g.advance.candidateAt j + 1 := by
  have now : InRange (g.candidateAt 0) := inside
  rw [countInRange, Nat.count_succ', if_pos now]
  rfl

theorem countInRange_succ_of_not_inRange (outside : ¬InRange g.candidate) (j : Nat) :
    countInRange g.candidateAt (j + 1) = countInRange g.advance.candidateAt j := by
  have now : ¬InRange (g.candidateAt 0) := outside
  rw [countInRange, Nat.count_succ', if_neg now]
  rfl

/-- The nonce with a given number of nonces before it. -/
def nth? (g : NonceGenerator) (n : Nat) : Option Scalar :=
  (g.take (n + 1)).bind fun nonces => nonces[n]?

theorem nth?_eq_some_iff :
    g.nth? n = some nonce ↔ ∃ nonces, g.take (n + 1) = some nonces ∧ nonces[n]? = some nonce :=
  Option.bind_eq_some_iff

theorem nth?_of_reject (first : Scalar.ofBytesNonzero? g.candidate = none) :
    g.nth? n = g.advance.nth? n := by
  rw [nth?, take_succ_of_reject first, nth?]

theorem nth?_zero_of_accept (first : Scalar.ofBytesNonzero? g.candidate = some nonce) :
    g.nth? 0 = some nonce := by
  rw [nth?, take_succ_of_accept first]
  rfl

theorem nth?_succ_of_accept (first : Scalar.ofBytesNonzero? g.candidate = some nonce) :
    g.nth? (n + 1) = g.advance.nth? n := by
  rw [nth?, take_succ_of_accept first, Option.bind_map, nth?]
  rfl

theorem nth?_of_candidateAt {j : Nat}
    (usable : Scalar.ofBytesNonzero? (g.candidateAt j) = some nonce) :
    g.nth? (countInRange g.candidateAt j) = some nonce := by
  induction j generalizing g with
  | zero => exact nth?_zero_of_accept usable
  | succ j ih =>
    cases first : Scalar.ofBytesNonzero? g.candidate with
    | some _ =>
      have inside := (Scalar.ofBytesNonzero?_eq_some_iff_inRange.mp first).1
      rw [countInRange_succ_of_inRange inside, nth?_succ_of_accept first]
      exact ih usable
    | none =>
      have outside := Scalar.ofBytesNonzero?_eq_none_iff_not_inRange.mp first
      rw [countInRange_succ_of_not_inRange outside, nth?_of_reject first]
      exact ih usable

theorem exists_first_of_nth? (found : g.nth? n = some nonce) :
    ∃ first others j, Scalar.ofBytesNonzero? (g.candidateAt j) = some first ∧
      countInRange g.candidateAt j = 0 ∧ (advance^[j + 1] g).take n = some others ∧
      (first :: others)[n]? = some nonce := by
  obtain ⟨nonces, taken, place⟩ := nth?_eq_some_iff.mp found
  obtain ⟨first, rest, others, next, takenRest, rfl⟩ := take_succ_eq_some_iff.mp taken
  obtain ⟨j, before, usable, rfl⟩ := searchAll_eq_some_iff.mp next
  refine ⟨first, others, j, usable, Nat.count_of_forall_not fun i few => ?_, takenRest, place⟩
  exact Scalar.ofBytesNonzero?_eq_none_iff_not_inRange.mp (before i few)

theorem countInRange_add (a b : Nat) :
    countInRange g.candidateAt (a + b) =
      countInRange (advance^[b] g).candidateAt a + countInRange g.candidateAt b := by
  have moved : (fun i => g.candidateAt (i + b)) = (advance^[b] g).candidateAt :=
    funext fun i => g.candidateAt_add i b
  rw [countInRange, Nat.count_add', ← moved]
  rfl

theorem exists_candidateAt_of_nth? (found : g.nth? n = some nonce) :
    ∃ j, Scalar.ofBytesNonzero? (g.candidateAt j) = some nonce ∧
      countInRange g.candidateAt j = n := by
  induction n generalizing g with
  | zero =>
    obtain ⟨first, others, j, usable, none, -, place⟩ := exists_first_of_nth? found
    rw [← Option.some.inj place]
    exact ⟨j, usable, none⟩
  | succ n ih =>
    obtain ⟨first, others, i, usable, none, taken, place⟩ := exists_first_of_nth? found
    obtain ⟨j, usable', later⟩ := ih (nth?_eq_some_iff.mpr ⟨others, taken, place⟩)
    have inside := (Scalar.ofBytesNonzero?_eq_some_iff_inRange.mp usable).1
    have one : countInRange g.candidateAt (i + 1) = 1 := by
      rw [countInRange, Nat.count_succ, if_pos inside, ← countInRange, none]
    refine ⟨j + (i + 1), ?_, ?_⟩
    · rwa [candidateAt_add]
    · rw [countInRange_add, later, one]

/-- A nonce is the candidate in range that has as many of them before it. -/
theorem nth?_eq_some_iff_candidateAt :
    g.nth? n = some nonce ↔
      ∃ j, Scalar.ofBytesNonzero? (g.candidateAt j) = some nonce ∧
        countInRange g.candidateAt j = n := by
  constructor
  · exact exists_candidateAt_of_nth?
  · rintro ⟨j, usable, rfl⟩
    exact nth?_of_candidateAt usable

end Nth

end NonceGenerator

end BitcoinSigning
