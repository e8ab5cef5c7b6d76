import BitcoinSigning.Bytes
import BitcoinSigning.Limbs.Bits
import BitcoinSigning.Modular.Modulus
/-!
Arithmetic with remainders by a modulus. A residue is a number below the modulus,
and every operation returns one, so equality of residues is equality of words.
-/

namespace BitcoinSigning

structure Residue (m : Modulus) where
  value : Nat256
  reduced : value.toNat < m.value.toNat
  deriving DecidableEq

namespace Residue

variable {m : Modulus}

def toNat (a : Residue m) : Nat := a.value.toNat

theorem toNat_lt (a : Residue m) : a.toNat < m.value.toNat := a.reduced

theorem toNat_inj {a b : Residue m} : a.toNat = b.toNat ↔ a = b := by
  constructor
  · intro same
    obtain ⟨value, _⟩ := a
    obtain ⟨value', _⟩ := b
    obtain rfl : value = value' := Nat256.toNat_inj.mp same
    rfl
  · rintro rfl
    rfl

def ofNat256? (m : Modulus) (number : Nat256) : Option (Residue m) :=
  if below : number.lt m.value then some ⟨number, (number.lt_iff m.value).mp below⟩ else none

def ofNat256Reduced (m : Modulus) (number : Nat256) : Residue m :=
  ⟨m.subtractOnce number, by
    have large := m.two_pow_255_lt
    rw [m.toNat_subtractOnce]
    exact Nat.mod_lt _ (by omega)⟩

def ofBytes? (m : Modulus) (bytes : Bytes32) : Option (Residue m) :=
  ofNat256? m (Nat256.ofBytes bytes)

def ofBytesReduced (m : Modulus) (bytes : Bytes32) : Residue m :=
  ofNat256Reduced m (Nat256.ofBytes bytes)

def ofWord (word : UInt64) : Residue m :=
  ⟨Nat256.ofWord word, by
    have large := m.two_pow_255_lt
    have small := word.toNat_lt
    rw [Nat256.toNat_ofWord]
    omega⟩

def zero : Residue m := ofWord 0

def one : Residue m := ofWord 1

instance : Inhabited (Residue m) := ⟨zero⟩

def toBytes (a : Residue m) : Bytes32 := a.value.toBytes

def isZero (a : Residue m) : Bool := a.value.isZero

def isOdd (a : Residue m) : Bool := a.value.isOdd

def isHigh (a : Residue m) : Bool := (m.value.shiftRight 1).lt a.value

def add (a b : Residue m) : Residue m :=
  let sum := a.value.add b.value
  if small : sum.2 = false ∧ sum.1.lt m.value = true then
    ⟨sum.1, (sum.1.lt_iff m.value).mp small.2⟩
  else
    ⟨(sum.1.sub m.value).1, by
      have total : sum.1.toNat + 2 ^ 256 * sum.2.toNat = a.value.toNat + b.value.toNat :=
        a.value.toNat_add b.value
      have difference := sum.1.toNat_sub m.value
      have below := m.value_lt
      have ha := a.reduced
      have hb := b.reduced
      have bound := sum.1.toNat_lt
      have result := (sum.1.sub m.value).1.toNat_lt
      have wrap := Bool.toNat_le (sum.1.sub m.value).2
      cases carry : sum.2
      · have notBelow : ¬ sum.1.toNat < m.value.toNat := fun less =>
          small ⟨carry, (sum.1.lt_iff m.value).mpr less⟩
        rw [carry, Bool.toNat_false] at total
        omega
      · rw [carry, Bool.toNat_true] at total
        omega⟩

def sub (a b : Residue m) : Residue m :=
  let difference := a.value.sub b.value
  if wrapped : difference.2 = true then
    ⟨(difference.1.add m.value).1, by
      have value : difference.1.toNat + b.value.toNat =
          a.value.toNat + 2 ^ 256 * difference.2.toNat := a.value.toNat_sub b.value
      have total := difference.1.toNat_add m.value
      have hb := b.reduced
      have bound := difference.1.toNat_lt
      have result := (difference.1.add m.value).1.toNat_lt
      have wrap := Bool.toNat_le (difference.1.add m.value).2
      rw [wrapped, Bool.toNat_true] at value
      omega⟩
  else
    ⟨difference.1, by
      have value : difference.1.toNat + b.value.toNat =
          a.value.toNat + 2 ^ 256 * difference.2.toNat := a.value.toNat_sub b.value
      have ha := a.reduced
      rw [Bool.not_eq_true] at wrapped
      rw [wrapped, Bool.toNat_false] at value
      omega⟩

def neg (a : Residue m) : Residue m := sub zero a

def mul (a b : Residue m) : Residue m :=
  ⟨m.reduce (a.value.mul b.value), by
    have large := m.two_pow_255_lt
    rw [m.toNat_reduce]
    exact Nat.mod_lt _ (by omega)⟩

def square (a : Residue m) : Residue m := mul a a

def double (a : Residue m) : Residue m := add a a

instance : Add (Residue m) := ⟨add⟩
instance : Sub (Residue m) := ⟨sub⟩
instance : Neg (Residue m) := ⟨neg⟩
instance : Mul (Residue m) := ⟨mul⟩

theorem ofNat256?_value (a : Residue m) : ofNat256? m a.value = some a := by
  rw [ofNat256?, dif_pos ((a.value.lt_iff m.value).mpr a.reduced)]

theorem ofBytes?_eq_some_iff {bytes : Bytes32} {a : Residue m} :
    ofBytes? m bytes = some a ↔ bytes = a.toBytes := by
  constructor
  · intro found
    rw [ofBytes?, ofNat256?] at found
    split at found
    · obtain rfl := Option.some.inj found
      exact (Nat256.toBytes_ofBytes bytes).symm
    · exact nomatch found
  · rintro rfl
    rw [ofBytes?, toBytes, Nat256.ofBytes_toBytes, ofNat256?_value]

theorem toNat_ofWord (word : UInt64) : (ofWord word : Residue m).toNat = word.toNat :=
  Nat256.toNat_ofWord word

theorem toNat_zero : (zero : Residue m).toNat = 0 := rfl

theorem toNat_one : (one : Residue m).toNat = 1 := rfl

theorem isZero_iff (a : Residue m) : a.isZero = true ↔ a.toNat = 0 := a.value.isZero_iff

private theorem mod_eq_of_add_mul {result total wraps modulus : Nat} (below : result < modulus)
    (sum : result + wraps * modulus = total) : result = total % modulus := by
  rw [← sum, Nat.add_mul_mod_self_right, Nat.mod_eq_of_lt below]

theorem toNat_add (a b : Residue m) : (a + b).toNat = (a.toNat + b.toNat) % m.value.toNat := by
  have large := m.two_pow_255_lt
  have below := m.value_lt
  have sum := a.value.toNat_add b.value
  have ha := a.toNat_lt
  have hb := b.toNat_lt
  have difference := (a.value.add b.value).1.toNat_sub m.value
  have bound := (a.value.add b.value).1.toNat_lt
  have result := (a + b).toNat_lt
  have wrap := Bool.toNat_le ((a.value.add b.value).1.sub m.value).2
  change (add a b).toNat < _ at result
  change (add a b).toNat = _
  simp only [toNat] at *
  simp only [add] at result ⊢
  split at result
  · rename_i small
    rw [dif_pos small]
    rw [small.1, Bool.toNat_false] at sum
    exact mod_eq_of_add_mul result
      (show (a.value.add b.value).1.toNat + 0 * _ = _ by omega)
  · rename_i large
    rw [dif_neg large]
    apply mod_eq_of_add_mul result
    show _ + 1 * _ = _
    cases carry : (a.value.add b.value).2
    · have notBelow : ¬ (a.value.add b.value).1.toNat < m.value.toNat := fun less =>
        large ⟨carry, (Nat256.lt_iff _ _).mpr less⟩
      rw [carry, Bool.toNat_false] at sum
      simp only at result ⊢
      omega
    · rw [carry, Bool.toNat_true] at sum
      simp only at result ⊢
      omega

theorem toNat_sub (a b : Residue m) :
    (a - b).toNat = (a.toNat + (m.value.toNat - b.toNat)) % m.value.toNat := by
  have below := m.value_lt
  have ha := a.toNat_lt
  have hb := b.toNat_lt
  have difference := a.value.toNat_sub b.value
  have total := (a.value.sub b.value).1.toNat_add m.value
  have bound := (a.value.sub b.value).1.toNat_lt
  have result := (a - b).toNat_lt
  have wrap := Bool.toNat_le ((a.value.sub b.value).1.add m.value).2
  change (sub a b).toNat < _ at result
  change (sub a b).toNat = _
  simp only [toNat] at *
  simp only [sub] at result ⊢
  split at result
  · rename_i wrapped
    rw [dif_pos wrapped]
    rw [wrapped, Bool.toNat_true] at difference
    apply mod_eq_of_add_mul result
    show _ + 0 * _ = _
    simp only at result ⊢
    omega
  · rename_i wrapped
    rw [dif_neg wrapped]
    rw [Bool.not_eq_true] at wrapped
    rw [wrapped, Bool.toNat_false] at difference
    apply mod_eq_of_add_mul result
    show _ + 1 * _ = _
    simp only at result ⊢
    omega

theorem toNat_neg (a : Residue m) : (-a).toNat = (m.value.toNat - a.toNat) % m.value.toNat := by
  change (zero - a).toNat = _
  rw [toNat_sub, toNat_zero, Nat.zero_add]

theorem toNat_mul (a b : Residue m) : (a * b).toNat = a.toNat * b.toNat % m.value.toNat := by
  change (m.reduce (a.value.mul b.value)).toNat = _
  rw [m.toNat_reduce, Nat256.toNat_mul, toNat, toNat]

theorem isZero_neg (a : Residue m) : (-a).isZero = a.isZero := by
  have below := a.toNat_lt
  rw [Bool.eq_iff_iff, isZero_iff, isZero_iff, toNat_neg]
  by_cases zero : a.toNat = 0
  · rw [zero, Nat.sub_zero, Nat.mod_self]
  · rw [Nat.mod_eq_of_lt (by omega)]
    omega

def pow (a : Residue m) (exponent : Nat256) : Residue m :=
  exponent.foldBits (fun power bit => if bit then mul (square power) a else square power) one

/-- The exponent that inverts residues of a prime modulus, the modulus less two. -/
def inversionExponent (m : Modulus) : Nat256 := (m.value.sub (Nat256.ofWord 2)).1

/-- The inverse, if the modulus is prime. Zero has none. -/
def invert (a : Residue m) : Option (Residue m) :=
  if a.isZero then none else some (a.pow (inversionExponent m))

end Residue

end BitcoinSigning
