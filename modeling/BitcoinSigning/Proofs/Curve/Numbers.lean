import BitcoinSigning.Proofs.Curve.ChordTangent
/-!
The formulas of the curve on bare numbers, with a remainder taken after every
operation. Words keep their numbers in four limbs and are slow to evaluate in a
proof; with numbers a multiple of a known point can be found by evaluation.
-/

namespace BitcoinSigning

namespace FieldElement

/-- The modulus as a literal, which an evaluation does not have to put together at every step. -/
def prime : Nat := 0xfffffffffffffffffffffffffffffffffffffffffffffffffffffffefffffc2f

theorem toNat_modulus : fieldModulus.value.toNat = prime := by decide

def addNumbers (a b : Nat) : Nat := (a + b) % prime

def subNumbers (a b : Nat) : Nat := (a + (prime - b)) % prime

def mulNumbers (a b : Nat) : Nat := a * b % prime

variable (a b : FieldElement)

theorem toNat_add_eq : (a + b).toNat = addNumbers a.toNat b.toNat := by
  rw [addNumbers, ← toNat_modulus]
  exact Residue.toNat_add a b

theorem toNat_sub_eq : (a - b).toNat = subNumbers a.toNat b.toNat := by
  rw [subNumbers, ← toNat_modulus]
  exact Residue.toNat_sub a b

theorem toNat_mul_eq : (a * b).toNat = mulNumbers a.toNat b.toNat := by
  rw [mulNumbers, ← toNat_modulus]
  exact Residue.toNat_mul a b

theorem toNat_double_eq : a.double.toNat = addNumbers a.toNat a.toNat := toNat_add_eq a a

theorem isZero_eq_beq : a.isZero = (a.toNat == 0) := by
  rw [Bool.eq_iff_iff, Residue.isZero_iff, beq_iff_eq]

theorem toNat_square_eq : a.square.toNat = mulNumbers a.toNat a.toNat := toNat_mul_eq a a

end FieldElement

open FieldElement

structure Numbers where
  x : Nat
  y : Nat
  z : Nat
  deriving DecidableEq

def Jacobian.numbers (p : Jacobian) : Numbers := ⟨p.x.toNat, p.y.toNat, p.z.toNat⟩

namespace Numbers

def infinity : Numbers := ⟨1, 1, 0⟩

def double (p : Numbers) : Numbers :=
  if p.z == 0 || p.y == 0 then infinity
  else
    let y2 := mulNumbers p.y p.y
    let x2 := mulNumbers p.x p.x
    let product := mulNumbers p.x y2
    let s := addNumbers (addNumbers product product) (addNumbers product product)
    let slope := addNumbers (addNumbers x2 x2) x2
    let x := subNumbers (mulNumbers slope slope) (addNumbers s s)
    let y4 := mulNumbers y2 y2
    let y4twice := addNumbers y4 y4
    let y4fourfold := addNumbers y4twice y4twice
    let yz := mulNumbers p.y p.z
    ⟨x, subNumbers (mulNumbers slope (subNumbers s x)) (addNumbers y4fourfold y4fourfold),
      addNumbers yz yz⟩

def add (p q : Numbers) : Numbers :=
  if p.z == 0 then q
  else if q.z == 0 then p
  else
    let pz2 := mulNumbers p.z p.z
    let qz2 := mulNumbers q.z q.z
    let u := mulNumbers p.x qz2
    let s := mulNumbers p.y (mulNumbers q.z qz2)
    let run := subNumbers (mulNumbers q.x pz2) u
    let rise := subNumbers (mulNumbers q.y (mulNumbers p.z pz2)) s
    if run == 0 then if rise == 0 then double p else infinity
    else
      let run2 := mulNumbers run run
      let run3 := mulNumbers run run2
      let v := mulNumbers u run2
      let x := subNumbers (subNumbers (mulNumbers rise rise) run3) (addNumbers v v)
      ⟨x, subNumbers (mulNumbers rise (subNumbers v x)) (mulNumbers s run3),
        mulNumbers run (mulNumbers p.z q.z)⟩

def next (running : Numbers × Numbers) (bit : Bool) : Numbers × Numbers :=
  if bit then (add running.1 running.2, double running.2)
  else (double running.1, add running.1 running.2)

def mul (p : Numbers) (k : Nat256) : Numbers := (k.foldBits next (infinity, p)).1

/-- Whether the triple stands for the point with these coordinates. -/
def standsFor (p : Numbers) (x y : Nat) : Bool :=
  let z2 := mulNumbers p.z p.z
  p.z != 0 && p.x == mulNumbers x z2 && p.y == mulNumbers y (mulNumbers z2 p.z)

end Numbers

namespace Jacobian

theorem numbers_infinity : infinity.numbers = .infinity := rfl

theorem numbers_double (p : Jacobian) : p.double.numbers = p.numbers.double := by
  unfold double Numbers.double
  simp only [isInfinity, isZero_eq_beq, apply_ite numbers, numbers_infinity]
  simp only [numbers, toNat_add_eq, toNat_sub_eq, toNat_mul_eq, toNat_double_eq, toNat_square_eq]
  rfl

theorem numbers_add (p q : Jacobian) : (p.add q).numbers = p.numbers.add q.numbers := by
  unfold add Numbers.add
  simp only [isInfinity, isZero_eq_beq, apply_ite numbers, numbers_double, numbers_infinity]
  simp only [numbers, toNat_sub_eq, toNat_mul_eq, toNat_double_eq, toNat_square_eq]
  rfl

theorem numbers_mul (p : Jacobian) (k : Scalar) : (p.mul k).numbers = p.numbers.mul k.value := by
  rw [mul, Numbers.mul, ← Prod.map_fst numbers numbers,
    Nat256.foldBits_image (Prod.map numbers numbers) Numbers.next]
  · rfl
  · rintro ⟨low, high⟩ bit
    cases bit with
    | false => exact Prod.ext (numbers_double low) (numbers_add low high)
    | true => exact Prod.ext (numbers_add low high) (numbers_double high)

theorem toPoint_of_standsFor {p : Jacobian} {x y : FieldElement}
    (check : p.numbers.standsFor x.toNat y.toNat = true) : p.toPoint = .affine x y := by
  simp only [Numbers.standsFor, numbers, ← toNat_mul_eq, Bool.and_eq_true, bne_iff_ne,
    beq_iff_eq, Residue.toNat_inj] at check
  obtain ⟨⟨finite, atX⟩, atY⟩ := check
  rw [ne_eq, ← Residue.isZero_iff, Residue.isZero_eq_true] at finite
  rw [← toPoint_scaled x y finite]
  congr 1
  obtain ⟨px, py, pz⟩ := p
  simp only at atX atY
  rw [scaled, atX, atY, pow_two, pow_succ pz, pow_two]

end Jacobian

namespace Point

def generatorNumbers : Numbers :=
  ⟨0x79be667ef9dcbbac55a06295ce870b07029bfcdb2dce28d959f2815b16f81798,
    0x483ada7726a3c4655da4fbfc0e1108a8fd17b448a68554199c47d08ffb10d4b8, 1⟩

theorem mulGenerator_of_standsFor {x y : FieldElement} {k : Scalar}
    (check : (generatorNumbers.mul k.value).standsFor x.toNat y.toNat = true) :
    mulGenerator k = affine x y := by
  have literals : (Jacobian.ofPoint generator).numbers = generatorNumbers := by decide
  rw [← literals, ← Jacobian.numbers_mul] at check
  have found := Jacobian.toPoint_of_standsFor check
  rw [mulGenerator, mul]
  exact found

end Point

end BitcoinSigning
