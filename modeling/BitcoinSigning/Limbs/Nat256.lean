import BitcoinSigning.Limbs.Word
/-!
Natural numbers below `2 ^ 256`, held as four words. Addition and subtraction
report the carry or borrow that leaves the top word, so together with it their
results are exact.
-/

namespace BitcoinSigning

attribute [local instance (high)] instPowNat

/-- A natural number below `2 ^ 256` in four words, the least significant first. -/
structure Nat256 where
  w0 : UInt64
  w1 : UInt64
  w2 : UInt64
  w3 : UInt64
  deriving DecidableEq, Repr

namespace Nat256

def toNat (a : Nat256) : Nat :=
  a.w0.toNat + 2 ^ (64 : Nat) * a.w1.toNat + 2 ^ (128 : Nat) * a.w2.toNat +
    2 ^ (192 : Nat) * a.w3.toNat

def ofWord (word : UInt64) : Nat256 :=
  ⟨word, 0, 0, 0⟩

def zero : Nat256 := ofWord 0

def one : Nat256 := ofWord 1

instance : Inhabited Nat256 := ⟨zero⟩

def isZero (a : Nat256) : Bool := a == zero

def isOdd (a : Nat256) : Bool :=
  a.w0 &&& 1 == 1

def word (a : Nat256) : Nat → UInt64
  | 0 => a.w0
  | 1 => a.w1
  | 2 => a.w2
  | 3 => a.w3
  | _ => 0

def bit (a : Nat256) (i : Nat) : Bool :=
  (a.word (i / 64) >>> (i % 64).toUInt64) &&& 1 == 1

/-- The sum modulo `2 ^ 256`, and whether it wrapped. -/
def add (a b : Nat256) : Nat256 × Bool :=
  let s0 := Word.add a.w0 b.w0 0
  let s1 := Word.add a.w1 b.w1 s0.hi
  let s2 := Word.add a.w2 b.w2 s1.hi
  let s3 := Word.add a.w3 b.w3 s2.hi
  (⟨s0.lo, s1.lo, s2.lo, s3.lo⟩, s3.hi != 0)

/-- The difference modulo `2 ^ 256`, and whether it wrapped. -/
def sub (a b : Nat256) : Nat256 × Bool :=
  let d0 := Word.sub a.w0 b.w0 0
  let d1 := Word.sub a.w1 b.w1 d0.hi
  let d2 := Word.sub a.w2 b.w2 d1.hi
  let d3 := Word.sub a.w3 b.w3 d2.hi
  (⟨d0.lo, d1.lo, d2.lo, d3.lo⟩, d3.hi != 0)

def shiftRight (a : Nat256) (shift : UInt64) : Nat256 :=
  if shift = 0 then a
  else
    let up := 64 - shift
    ⟨a.w0 >>> shift ||| a.w1 <<< up, a.w1 >>> shift ||| a.w2 <<< up,
      a.w2 >>> shift ||| a.w3 <<< up, a.w3 >>> shift⟩

def cmp (a b : Nat256) : Ordering :=
  (compare a.w3 b.w3).then <| (compare a.w2 b.w2).then <|
    (compare a.w1 b.w1).then (compare a.w0 b.w0)

instance : Ord Nat256 := ⟨cmp⟩

def lt (a b : Nat256) : Bool := cmp a b == .lt

theorem toNat_lt (a : Nat256) : a.toNat < 2 ^ (256 : Nat) := by
  have h0 := a.w0.toNat_lt
  have h1 := a.w1.toNat_lt
  have h2 := a.w2.toNat_lt
  have h3 := a.w3.toNat_lt
  simp only [toNat]
  omega

theorem toNat_inj {a b : Nat256} : a.toNat = b.toNat ↔ a = b := by
  constructor
  · intro same
    have := a.w0.toNat_lt
    have := a.w1.toNat_lt
    have := a.w2.toNat_lt
    have := a.w3.toNat_lt
    have := b.w0.toNat_lt
    have := b.w1.toNat_lt
    have := b.w2.toNat_lt
    have := b.w3.toNat_lt
    cases a
    cases b
    simp only [toNat] at *
    simp only [mk.injEq, ← UInt64.toNat_inj]
    omega
  · rintro rfl
    rfl

theorem toNat_ofWord (word : UInt64) : (ofWord word).toNat = word.toNat := by
  simp only [toNat, ofWord, UInt64.toNat_zero]
  omega

theorem toNat_zero : zero.toNat = 0 := rfl

theorem isZero_iff (a : Nat256) : a.isZero = true ↔ a.toNat = 0 := by
  rw [isZero, beq_iff_eq, ← toNat_inj, toNat_zero]

theorem toNat_add (a b : Nat256) :
    (a.add b).1.toNat + 2 ^ (256 : Nat) * (a.add b).2.toNat = a.toNat + b.toNat := by
  simp only [add]
  have e0 := Word.toNat_add a.w0 b.w0 0
  have c0 := Word.add_hi_le_one a.w0 b.w0 0 (by decide)
  generalize Word.add a.w0 b.w0 0 = s0 at *
  have e1 := Word.toNat_add a.w1 b.w1 s0.hi
  have c1 := Word.add_hi_le_one a.w1 b.w1 s0.hi c0
  generalize Word.add a.w1 b.w1 s0.hi = s1 at *
  have e2 := Word.toNat_add a.w2 b.w2 s1.hi
  have c2 := Word.add_hi_le_one a.w2 b.w2 s1.hi c1
  generalize Word.add a.w2 b.w2 s1.hi = s2 at *
  have e3 := Word.toNat_add a.w3 b.w3 s2.hi
  have c3 := Word.add_hi_le_one a.w3 b.w3 s2.hi c2
  generalize Word.add a.w3 b.w3 s2.hi = s3 at *
  rw [Word.toNat_ne_zero_of_le_one s3.hi c3]
  simp only [DoubleWord.toNat, toNat, UInt64.toNat_zero] at *
  omega

theorem toNat_sub (a b : Nat256) :
    (a.sub b).1.toNat + b.toNat = a.toNat + 2 ^ (256 : Nat) * (a.sub b).2.toNat := by
  simp only [sub]
  have e0 := Word.toNat_sub a.w0 b.w0 0 (by decide)
  have c0 := Word.sub_hi_le_one a.w0 b.w0 0
  generalize Word.sub a.w0 b.w0 0 = d0 at *
  have e1 := Word.toNat_sub a.w1 b.w1 d0.hi c0
  have c1 := Word.sub_hi_le_one a.w1 b.w1 d0.hi
  generalize Word.sub a.w1 b.w1 d0.hi = d1 at *
  have e2 := Word.toNat_sub a.w2 b.w2 d1.hi c1
  have c2 := Word.sub_hi_le_one a.w2 b.w2 d1.hi
  generalize Word.sub a.w2 b.w2 d1.hi = d2 at *
  have e3 := Word.toNat_sub a.w3 b.w3 d2.hi c2
  have c3 := Word.sub_hi_le_one a.w3 b.w3 d2.hi
  generalize Word.sub a.w3 b.w3 d2.hi = d3 at *
  rw [Word.toNat_ne_zero_of_le_one d3.hi c3]
  simp only [toNat, UInt64.toNat_zero] at *
  omega

private theorem compare_eq_compare_toNat (x y : UInt64) : compare x y = compare x.toNat y.toNat := by
  simp only [compare, compareOfLessAndEq, UInt64.lt_iff_toNat_lt, ← UInt64.toNat_inj]

private theorem then_compare {high high' low low' base : Nat} (small : low < base)
    (small' : low' < base) :
    (compare high high').then (compare low low') =
      compare (low + base * high) (low' + base * high') := by
  rcases Nat.lt_trichotomy high high' with less | rfl | more
  · have step := Nat.mul_le_mul_left base less
    rw [Nat.mul_succ] at step
    have total : low + base * high < low' + base * high' := by omega
    rw [Nat.compare_eq_lt.mpr less, Nat.compare_eq_lt.mpr total]
    rfl
  · rw [Nat.compare_eq_eq.mpr rfl, Ordering.then]
    simp only [compare, compareOfLessAndEq, Nat.add_lt_add_iff_right, Nat.add_right_cancel_iff]
  · have step := Nat.mul_le_mul_left base more
    rw [Nat.mul_succ] at step
    have total : low' + base * high' < low + base * high := by omega
    rw [Nat.compare_eq_gt.mpr more, Nat.compare_eq_gt.mpr total]
    rfl

theorem cmp_eq_compare_toNat (a b : Nat256) : cmp a b = compare a.toNat b.toNat := by
  have ha0 := a.w0.toNat_lt
  have ha1 := a.w1.toNat_lt
  have ha2 := a.w2.toNat_lt
  have hb0 := b.w0.toNat_lt
  have hb1 := b.w1.toNat_lt
  have hb2 := b.w2.toNat_lt
  simp only [cmp, compare_eq_compare_toNat]
  rw [then_compare ha0 hb0,
    then_compare (show a.w0.toNat + 2 ^ 64 * a.w1.toNat < 2 ^ 128 by omega) (by omega),
    then_compare (show a.w0.toNat + 2 ^ 64 * a.w1.toNat + 2 ^ 128 * a.w2.toNat < 2 ^ 192 by omega)
      (by omega)]
  rfl

theorem lt_iff (a b : Nat256) : a.lt b = true ↔ a.toNat < b.toNat := by
  rw [lt, cmp_eq_compare_toNat, ← Nat.compare_eq_lt]
  exact beq_iff_eq

end Nat256

end BitcoinSigning
