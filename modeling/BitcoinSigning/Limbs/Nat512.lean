import BitcoinSigning.Limbs.Nat256
/-!
Products of 256-bit numbers. A number times a word, and a number times a number,
are computed together with a number to be added, because the sum always fits in
the five or eight words of the result: nothing is ever lost.
-/

namespace BitcoinSigning

attribute [local instance (high)] instPowNat

structure Nat320 where
  low : Nat256
  top : UInt64
  deriving DecidableEq

/-- A natural number below `2 ^ 512` in eight words, the least significant first. -/
structure Nat512 where
  w0 : UInt64
  w1 : UInt64
  w2 : UInt64
  w3 : UInt64
  w4 : UInt64
  w5 : UInt64
  w6 : UInt64
  w7 : UInt64
  deriving DecidableEq

namespace Nat320

def toNat (a : Nat320) : Nat :=
  a.low.toNat + 2 ^ (256 : Nat) * a.top.toNat

def upper (a : Nat320) : Nat256 :=
  ⟨a.low.w1, a.low.w2, a.low.w3, a.top⟩

theorem toNat_eq_upper (a : Nat320) :
    a.toNat = a.low.w0.toNat + 2 ^ (64 : Nat) * a.upper.toNat := by
  simp only [toNat, upper, Nat256.toNat]
  omega

end Nat320

namespace Nat512

def low (a : Nat512) : Nat256 := ⟨a.w0, a.w1, a.w2, a.w3⟩

def high (a : Nat512) : Nat256 := ⟨a.w4, a.w5, a.w6, a.w7⟩

def words (a : Nat512) : List UInt64 := [a.w0, a.w1, a.w2, a.w3, a.w4, a.w5, a.w6, a.w7]

def toNat (a : Nat512) : Nat :=
  a.low.toNat + 2 ^ (256 : Nat) * a.high.toNat

def ofNat256 (a : Nat256) : Nat512 := ⟨a.w0, a.w1, a.w2, a.w3, 0, 0, 0, 0⟩

theorem toNat_ofNat256 (a : Nat256) : (ofNat256 a).toNat = a.toNat := by
  simp only [toNat, ofNat256, low, high, Nat256.toNat, UInt64.toNat_zero]
  omega

end Nat512

namespace Nat256

def mulAddWord (acc : Nat256) (a : UInt64) (b : Nat256) : Nat320 :=
  if a = 0 then ⟨acc, 0⟩
  else
    let r0 := Word.mulAdd acc.w0 a b.w0 0
    let r1 := Word.mulAdd acc.w1 a b.w1 r0.hi
    let r2 := Word.mulAdd acc.w2 a b.w2 r1.hi
    let r3 := Word.mulAdd acc.w3 a b.w3 r2.hi
    ⟨⟨r0.lo, r1.lo, r2.lo, r3.lo⟩, r3.hi⟩

/-- The number `acc + a * b`, row by row from the lowest word of `a`. -/
def mulAdd (acc a b : Nat256) : Nat512 :=
  let r0 := mulAddWord acc a.w0 b
  let r1 := mulAddWord r0.upper a.w1 b
  let r2 := mulAddWord r1.upper a.w2 b
  let r3 := mulAddWord r2.upper a.w3 b
  ⟨r0.low.w0, r1.low.w0, r2.low.w0, r3.low.w0, r3.low.w1, r3.low.w2, r3.low.w3, r3.top⟩

def mul (a b : Nat256) : Nat512 := mulAdd zero a b

theorem toNat_mulAddWord (acc : Nat256) (a : UInt64) (b : Nat256) :
    (mulAddWord acc a b).toNat = acc.toNat + a.toNat * b.toNat := by
  by_cases none : a = 0
  · subst none
    simp only [mulAddWord, if_pos, Nat320.toNat, UInt64.toNat_zero, Nat.zero_mul, Nat.mul_zero]
  · simp only [mulAddWord, if_neg none]
    have e0 := Word.toNat_mulAdd acc.w0 a b.w0 0
    generalize Word.mulAdd acc.w0 a b.w0 0 = r0 at *
    have e1 := Word.toNat_mulAdd acc.w1 a b.w1 r0.hi
    generalize Word.mulAdd acc.w1 a b.w1 r0.hi = r1 at *
    have e2 := Word.toNat_mulAdd acc.w2 a b.w2 r1.hi
    generalize Word.mulAdd acc.w2 a b.w2 r1.hi = r2 at *
    have e3 := Word.toNat_mulAdd acc.w3 a b.w3 r2.hi
    generalize Word.mulAdd acc.w3 a b.w3 r2.hi = r3 at *
    simp only [Nat320.toNat, toNat, DoubleWord.toNat, UInt64.toNat_zero, Nat.mul_add,
      Nat.mul_left_comm a.toNat] at *
    omega

theorem toNat_mulAdd (acc a b : Nat256) :
    (mulAdd acc a b).toNat = acc.toNat + a.toNat * b.toNat := by
  simp only [mulAdd]
  have e0 := toNat_mulAddWord acc a.w0 b
  generalize mulAddWord acc a.w0 b = r0 at *
  have e1 := toNat_mulAddWord r0.upper a.w1 b
  generalize mulAddWord r0.upper a.w1 b = r1 at *
  have e2 := toNat_mulAddWord r1.upper a.w2 b
  generalize mulAddWord r1.upper a.w2 b = r2 at *
  have e3 := toNat_mulAddWord r2.upper a.w3 b
  generalize mulAddWord r2.upper a.w3 b = r3 at *
  rw [Nat320.toNat_eq_upper] at e0 e1 e2
  have rows : a.toNat * b.toNat = a.w0.toNat * b.toNat + 2 ^ 64 * (a.w1.toNat * b.toNat) +
      2 ^ 128 * (a.w2.toNat * b.toNat) + 2 ^ 192 * (a.w3.toNat * b.toNat) := by
    rw [toNat, Nat.add_mul, Nat.add_mul, Nat.add_mul]
    simp only [Nat.mul_assoc]
  rw [rows]
  simp only [Nat320.toNat] at e3
  generalize r0.upper.toNat = u0 at *
  generalize r1.upper.toNat = u1 at *
  generalize r2.upper.toNat = u2 at *
  generalize a.w0.toNat * b.toNat = p0 at *
  generalize a.w1.toNat * b.toNat = p1 at *
  generalize a.w2.toNat * b.toNat = p2 at *
  generalize a.w3.toNat * b.toNat = p3 at *
  simp only [Nat512.toNat, Nat512.low, Nat512.high, toNat] at *
  omega

theorem toNat_mul (a b : Nat256) : (mul a b).toNat = a.toNat * b.toNat := by
  rw [mul, toNat_mulAdd, zero, toNat_ofWord, UInt64.toNat_zero, Nat.zero_add]

end Nat256

end BitcoinSigning
