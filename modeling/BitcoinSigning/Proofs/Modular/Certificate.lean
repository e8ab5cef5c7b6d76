import BitcoinSigning.Curve.Field
import BitcoinSigning.Curve.Scalar
import Mathlib.NumberTheory.LucasPrimality
import Mathlib.Tactic.NormNum.Prime
/-!
The field modulus and the group order are prime. A number is certified by a base
whose order modulo it is one less than the number, and that is seen from the
prime factors of this order, which are certified before. The powers are computed
by squaring, so that a table of such certificates can be checked by evaluation.
-/

namespace BitcoinSigning

def powMod (modulus : Nat) : Nat → Nat → Nat → Nat
  | 0, _, _ => 1 % modulus
  | rounds + 1, base, exponent =>
    let even := powMod modulus rounds (base * base % modulus) (exponent / 2)
    if exponent % 2 = 1 then base * even % modulus else even

theorem cast_powMod (modulus rounds base exponent : Nat) (enough : exponent < 2 ^ rounds) :
    (powMod modulus rounds base exponent : ZMod modulus) = (base : ZMod modulus) ^ exponent := by
  induction rounds generalizing base exponent with
  | zero =>
    obtain rfl : exponent = 0 := by omega
    rw [powMod, ZMod.natCast_mod, pow_zero, Nat.cast_one]
  | succ rounds ih =>
    have half := ih (base * base % modulus) (exponent / 2) (by omega)
    rw [ZMod.natCast_mod, Nat.cast_mul, ← pow_two (base : ZMod modulus), ← pow_mul] at half
    unfold powMod
    by_cases odd : exponent % 2 = 1
    · rw [if_pos odd, ZMod.natCast_mod, Nat.cast_mul, half, ← pow_succ']
      congr 1
      omega
    · rw [if_neg odd, half]
      congr 1
      omega

theorem powMod_lt (modulus rounds base exponent : Nat) (positive : 0 < modulus) :
    powMod modulus rounds base exponent < modulus := by
  induction rounds generalizing base exponent with
  | zero => exact Nat.mod_lt _ positive
  | succ rounds ih =>
    unfold powMod
    by_cases odd : exponent % 2 = 1
    · rw [if_pos odd]
      exact Nat.mod_lt _ positive
    · rw [if_neg odd]
      exact ih _ _

def powIsOne (modulus base exponent : Nat) : Bool :=
  powMod modulus (exponent.log2 + 1) base exponent == 1

theorem powIsOne_iff (modulus base exponent : Nat) (large : 1 < modulus) :
    powIsOne modulus base exponent = true ↔ (base : ZMod modulus) ^ exponent = 1 := by
  have below := powMod_lt modulus (exponent.log2 + 1) base exponent (by omega)
  have cast := cast_powMod modulus _ base exponent Nat.lt_log2_self
  have one : (1 : ZMod modulus) = (1 : Nat) := Nat.cast_one.symm
  rw [powIsOne, beq_iff_eq, ← cast, one, ZMod.natCast_eq_natCast_iff', Nat.mod_eq_of_lt below,
    Nat.mod_eq_of_lt large]

/-- A base for Lucas's test, and the factors of the number less one. -/
structure PrimeCertificate where
  number : Nat
  base : Nat
  factors : List Nat

namespace PrimeCertificate

/-- The factors are known, their product is one less than the number, and the
base has no smaller order. -/
def holds (known : List Nat) (c : PrimeCertificate) : Bool :=
  1 < c.number && c.factors.all known.contains && c.factors.prod == c.number - 1 &&
    powIsOne c.number c.base (c.number - 1) &&
    c.factors.all fun factor => !powIsOne c.number c.base ((c.number - 1) / factor)

theorem prime_of_holds {known : List Nat} {c : PrimeCertificate}
    (primes : ∀ p ∈ known, p.Prime) (checked : c.holds known = true) : c.number.Prime := by
  simp only [holds, Bool.and_eq_true, decide_eq_true_eq, List.all_eq_true, beq_iff_eq,
    List.contains_iff_mem, Bool.not_eq_true'] at checked
  obtain ⟨⟨⟨⟨large, members⟩, product⟩, full⟩, smaller⟩ := checked
  apply lucas_primality c.number (c.base : ZMod c.number)
  · exact (powIsOne_iff _ _ _ large).mp full
  · intro factor isPrime divides one
    rw [← product] at divides
    obtain ⟨listed, member, divides⟩ := (Prime.dvd_prod_iff isPrime.prime).mp divides
    have same :=
      (Nat.prime_dvd_prime_iff_eq isPrime (primes listed (members listed member))).mp divides
    subst same
    rw [← powIsOne_iff _ _ _ large, smaller factor member] at one
    exact nomatch one

/-- The numbers that a table adds to the known ones. Every certificate may use
the numbers before it; one that does not hold ends the table. -/
def certified : List Nat → List PrimeCertificate → List Nat
  | known, [] => known
  | known, c :: rest => if c.holds known then certified (c.number :: known) rest else known

theorem prime_of_mem_certified {known : List Nat} {table : List PrimeCertificate}
    (primes : ∀ p ∈ known, p.Prime) : ∀ p ∈ certified known table, p.Prime := by
  induction table generalizing known with
  | nil => exact primes
  | cons c rest ih =>
    unfold certified
    by_cases checked : c.holds known = true
    · rw [if_pos checked]
      apply ih
      intro p member
      rcases List.mem_cons.mp member with rfl | earlier
      · exact prime_of_holds primes checked
      · exact primes p earlier
    · rw [if_neg checked]
      exact primes

end PrimeCertificate

def smallPrimes : List Nat :=
  [2, 3, 5, 7, 11, 17, 29, 31, 41, 53, 59, 97, 109, 149, 293, 461, 631, 797, 971, 1373, 1627, 2011,
    2621, 2657, 4051, 4423, 5323, 7723, 9349, 13441, 16699, 24809, 28181, 41201, 85831, 96557,
    120233, 305873, 1206781, 1627771]

theorem prime_of_mem_smallPrimes : ∀ p ∈ smallPrimes, p.Prime := by
  simp only [smallPrimes, List.forall_mem_cons]
  norm_num

/-- The two primes of secp256k1 are the last two numbers. -/
def certificates : List PrimeCertificate :=
  [⟨4681609, 23, [2, 2, 2, 3, 97, 2011]⟩,
    ⟨7240687, 3, [2, 3, 1206781]⟩,
    ⟨13331831, 13, [2, 5, 971, 1373]⟩,
    ⟨44706919, 6, [2, 3, 797, 9349]⟩,
    ⟨107590001, 3, [2, 2, 2, 2, 5, 5, 5, 5, 7, 29, 53]⟩,
    ⟨545358713, 5, [2, 2, 2, 41, 59, 28181]⟩,
    ⟨297159362677, 2, [2, 2, 3, 3, 11, 461, 1627771]⟩,
    ⟨107361793816595537, 3, [2, 2, 2, 2, 16699, 85831, 4681609]⟩,
    ⟨173378833005251801, 6, [2, 2, 2, 5, 5, 2621, 24809, 13331831]⟩,
    ⟨174723607534414371449, 3, [2, 2, 2, 17, 59, 4051, 120233, 44706919]⟩,
    ⟨22149492674086928081353, 5, [2, 2, 2, 3, 5323, 173378833005251801]⟩,
    ⟨132896956044521568488119, 6, [2, 3, 22149492674086928081353]⟩,
    ⟨29047611873442575647497758179, 2, [2, 293, 305873, 545358713, 297159362677]⟩,
    ⟨341948486974166000522343609283189, 2,
      [2, 2, 3, 3, 3, 109, 29047611873442575647497758179]⟩,
    ⟨255515944373312847190720520512484175977, 3,
      [2, 2, 2, 7, 7, 11, 1627, 2657, 4423, 41201, 96557, 7240687, 107590001]⟩,
    ⟨205115282021455665897114700593932402728804164701536103180137503955397371, 10,
      [2, 3, 5, 29, 29, 31, 7723, 132896956044521568488119,
        255515944373312847190720520512484175977]⟩,
    ⟨fieldModulus.value.toNat, 3,
      [2, 3, 7, 13441,
        205115282021455665897114700593932402728804164701536103180137503955397371]⟩,
    ⟨groupOrder.value.toNat, 7,
      [2, 2, 2, 2, 2, 2, 3, 149, 631, 107361793816595537, 174723607534414371449,
        341948486974166000522343609283189]⟩]

private theorem prime_of_mem_certificates {p : Nat}
    (member : p ∈ PrimeCertificate.certified smallPrimes certificates) : p.Prime :=
  PrimeCertificate.prime_of_mem_certified prime_of_mem_smallPrimes p member

theorem fieldModulus_prime : fieldModulus.value.toNat.Prime :=
  prime_of_mem_certificates (by decide +kernel)

theorem groupOrder_prime : groupOrder.value.toNat.Prime :=
  prime_of_mem_certificates (by decide +kernel)

end BitcoinSigning
