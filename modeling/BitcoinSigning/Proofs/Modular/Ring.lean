import BitcoinSigning.Modular.Residue
import BitcoinSigning.Proofs.Limbs.BitFold
import Mathlib.Algebra.Ring.MinimalAxioms
import Mathlib.Data.ZMod.Basic
/-!
Residues are the integers modulo their modulus. The operations on words agree
with those of `ZMod`, so the residues are a commutative ring, and everything
that is computed with them can be computed in that ring.
-/

namespace BitcoinSigning.Residue

variable {m : Modulus}

instance (m : Modulus) : NeZero m.value.toNat :=
  ⟨by
    have large := m.two_pow_255_lt
    omega⟩

/-- The class of the number that is stored. -/
def toZMod (a : Residue m) : ZMod m.value.toNat := (a.toNat : ZMod m.value.toNat)

theorem toZMod_injective : Function.Injective (toZMod : Residue m → ZMod m.value.toNat) := by
  intro a b same
  unfold toZMod at same
  rw [ZMod.natCast_eq_natCast_iff', Nat.mod_eq_of_lt a.toNat_lt, Nat.mod_eq_of_lt b.toNat_lt]
    at same
  exact toNat_inj.mp same

instance : Zero (Residue m) := ⟨zero⟩

instance : One (Residue m) := ⟨one⟩

theorem toZMod_zero : (0 : Residue m).toZMod = 0 := by
  change ((0 : Nat) : ZMod m.value.toNat) = 0
  exact Nat.cast_zero

theorem toZMod_one : (1 : Residue m).toZMod = 1 := by
  change ((1 : Nat) : ZMod m.value.toNat) = 1
  exact Nat.cast_one

theorem toZMod_add (a b : Residue m) : (a + b).toZMod = a.toZMod + b.toZMod := by
  unfold toZMod
  rw [toNat_add, ZMod.natCast_mod, Nat.cast_add]

theorem toZMod_mul (a b : Residue m) : (a * b).toZMod = a.toZMod * b.toZMod := by
  unfold toZMod
  rw [toNat_mul, ZMod.natCast_mod, Nat.cast_mul]

theorem toZMod_sub (a b : Residue m) : (a - b).toZMod = a.toZMod - b.toZMod := by
  have below := b.toNat_lt
  unfold toZMod
  rw [toNat_sub, ZMod.natCast_mod, Nat.cast_add, Nat.cast_sub (by omega), ZMod.natCast_self,
    zero_sub, sub_eq_add_neg]

theorem toZMod_neg (a : Residue m) : (-a).toZMod = -a.toZMod := by
  change ((0 : Residue m) - a).toZMod = _
  rw [toZMod_sub, toZMod_zero, zero_sub]

instance : CommRing (Residue m) :=
  { CommRing.ofMinimalAxioms
      (fun a b c : Residue m => toZMod_injective (by simp only [toZMod_add, add_assoc]))
      (fun a => toZMod_injective (by rw [toZMod_add, toZMod_zero, zero_add]))
      (fun a => toZMod_injective (by rw [toZMod_add, toZMod_neg, toZMod_zero, neg_add_cancel]))
      (fun a b c => toZMod_injective (by simp only [toZMod_mul, mul_assoc]))
      (fun a b => toZMod_injective (by rw [toZMod_mul, toZMod_mul, mul_comm]))
      (fun a => toZMod_injective (by rw [toZMod_mul, toZMod_one, one_mul]))
      (fun a b c => toZMod_injective (by simp only [toZMod_add, toZMod_mul, mul_add])) with
    sub := fun a b => a - b
    sub_eq_add_neg := fun a b => toZMod_injective (by
      change (a - b).toZMod = (a + -b).toZMod
      rw [toZMod_sub, toZMod_add, toZMod_neg, sub_eq_add_neg]) }

instance : Nontrivial (Residue m) :=
  ⟨0, 1, fun same => Nat.zero_ne_one (congrArg toNat same)⟩

theorem one_eq : (one : Residue m) = 1 := rfl

theorem square_eq (a : Residue m) : a.square = a ^ 2 := (pow_two a).symm

theorem double_eq (a : Residue m) : a.double = 2 * a := (two_mul a).symm

theorem isZero_eq_true (a : Residue m) : a.isZero = true ↔ a = 0 := by
  rw [isZero_iff, ← toNat_inj]
  rfl

theorem isZero_eq_false (a : Residue m) : a.isZero = false ↔ a ≠ 0 := by
  rw [← Bool.not_eq_true, isZero_eq_true]

theorem toNat_natCast (n : Nat) : (n : Residue m).toNat = n % m.value.toNat := by
  induction n with
  | zero => rw [Nat.cast_zero, Nat.zero_mod]; rfl
  | succ n ih =>
    rw [Nat.cast_succ, toNat_add, ih]
    change (n % m.value.toNat + 1) % m.value.toNat = _
    rw [Nat.mod_add_mod]

theorem natCast_ne_zero {n : Nat} (positive : n ≠ 0) (small : n < 2 ^ 255) :
    (n : Residue m) ≠ 0 := by
  have large := m.two_pow_255_lt
  intro zero
  have remainder := congrArg toNat zero
  rw [toNat_natCast, Nat.mod_eq_of_lt (by omega)] at remainder
  exact positive remainder

theorem natCast_toNat (a : Residue m) : (a.toNat : Residue m) = a := by
  rw [← toNat_inj, toNat_natCast, Nat.mod_eq_of_lt a.toNat_lt]

theorem ofWord_eq (word : UInt64) : (ofWord word : Residue m) = (word.toNat : Residue m) := by
  have large := m.two_pow_255_lt
  have small := word.toNat_lt
  rw [← toNat_inj, toNat_ofWord, toNat_natCast, Nat.mod_eq_of_lt (by omega)]

theorem ofBytesReduced_eq (bytes : Bytes32) :
    ofBytesReduced m bytes = (Bytes.ofBigEndian bytes.bytes : Residue m) := by
  rw [← toNat_inj, toNat_natCast, ← Nat256.toNat_ofBytes]
  exact m.toNat_subtractOnce (Nat256.ofBytes bytes)

theorem toNat_ofBytesReduced (bytes : Bytes32) :
    (ofBytesReduced m bytes).toNat = Bytes.ofBigEndian bytes.bytes % m.value.toNat := by
  rw [ofBytesReduced_eq, toNat_natCast]

theorem ofBytes?_eq_some_iff_toNat {bytes : Bytes32} {a : Residue m} :
    ofBytes? m bytes = some a ↔ a.toNat = Bytes.ofBigEndian bytes.bytes := by
  rw [ofBytes?_eq_some_iff, ← Nat256.toNat_ofBytes, toNat, Nat256.toNat_inj]
  constructor
  · rintro rfl
    exact (Nat256.ofBytes_toBytes a.value).symm
  · intro same
    rw [toBytes, same, Nat256.toBytes_ofBytes]

theorem ofBytesReduced_toBytes (a : Residue m) : ofBytesReduced m a.toBytes = a := by
  rw [ofBytesReduced_eq, toBytes, Nat256.ofBigEndian_toBytes]
  exact a.natCast_toNat

theorem ofBytes?_toBytes (a : Residue m) : ofBytes? m a.toBytes = some a :=
  ofBytes?_eq_some_iff.mpr rfl

theorem toBytes_injective : Function.Injective (toBytes : Residue m → Bytes32) := by
  intro a b same
  have found := ofBytes?_toBytes a
  rw [same, ofBytes?_toBytes] at found
  exact (Option.some.inj found).symm

theorem ofBigEndian_toBytes (a : Residue m) : Bytes.ofBigEndian a.toBytes.bytes = a.toNat :=
  Nat256.ofBigEndian_toBytes a.value

theorem exists_toBytes_eq {bytes : Bytes32}
    (below : Bytes.ofBigEndian bytes.bytes < m.value.toNat) :
    ∃ a : Residue m, a.toBytes = bytes := by
  rw [← Nat256.toNat_ofBytes] at below
  exact ⟨⟨Nat256.ofBytes bytes, below⟩, Nat256.toBytes_ofBytes bytes⟩

theorem pow_eq (a : Residue m) (exponent : Nat256) : a.pow exponent = a ^ exponent.toNat := by
  apply exponent.foldBits_induction (motive := fun n power => power = a ^ n)
  · exact (pow_zero a).symm
  · rintro n power bit rfl
    have squared : square (a ^ n) = a ^ (2 * n) := by rw [square_eq, ← pow_mul, mul_comm]
    cases bit
    · simpa only [Bool.false_eq_true, if_false, Bool.toNat_false, add_zero] using squared
    · rw [if_pos rfl, squared, Bool.toNat_true, pow_succ]
      rfl

theorem isOdd_iff (a : Residue m) : a.isOdd = true ↔ a.toNat % 2 = 1 := a.value.isOdd_iff

theorem toNat_ne_zero {a : Residue m} (nonzero : a ≠ 0) : a.toNat ≠ 0 := fun zero =>
  nonzero ((isZero_eq_true a).mp (a.isZero_iff.mpr zero))

theorem toNat_neg_of_ne_zero {a : Residue m} (nonzero : a ≠ 0) :
    (-a).toNat = m.value.toNat - a.toNat := by
  have below := a.toNat_lt
  have positive := toNat_ne_zero nonzero
  rw [toNat_neg, Nat.mod_eq_of_lt (by omega)]

theorem isOdd_neg (odd : m.value.toNat % 2 = 1) {a : Residue m} (nonzero : a ≠ 0) :
    (-a).isOdd = !a.isOdd := by
  have below := a.toNat_lt
  rw [Bool.eq_iff_iff, Bool.not_eq_true', ← Bool.not_eq_true, isOdd_iff, isOdd_iff,
    toNat_neg_of_ne_zero nonzero]
  omega

def toZModHom (m : Modulus) : Residue m →+* ZMod m.value.toNat where
  toFun := toZMod
  map_zero' := toZMod_zero
  map_one' := toZMod_one
  map_add' := toZMod_add
  map_mul' := toZMod_mul

theorem toZMod_surjective : Function.Surjective (toZMod : Residue m → ZMod m.value.toNat) := by
  intro x
  obtain ⟨n, rfl⟩ := ZMod.natCast_zmod_surjective x
  exact ⟨n, map_natCast (toZModHom m) n⟩

noncomputable def equivZMod (m : Modulus) : Residue m ≃+* ZMod m.value.toNat :=
  RingEquiv.ofBijective (toZModHom m) ⟨toZMod_injective, toZMod_surjective⟩

instance : Finite (Residue m) := Finite.of_injective toZMod toZMod_injective

theorem card_residue (m : Modulus) : Nat.card (Residue m) = m.value.toNat := by
  rw [Nat.card_congr (equivZMod m).toEquiv, Nat.card_zmod]

end BitcoinSigning.Residue
