import BitcoinSigning.Modular.Residue
import BitcoinSigning.Proofs.Limbs.BitFold
import BitcoinSigning.Proofs.Modular.Computation
import BitcoinSigning.Proofs.Modular.FoldingLoop
import BitcoinSigning.Proofs.Modular.TwoFolds
/-!
Residues as the words that are stored for them. The operations on words do not look whether
their arguments are below the modulus, and no proof goes with a result. On the words of
residues they give the words of the residues that the operations on residues give.
-/

namespace BitcoinSigning

/-- The constants of a modulus, and how products are reduced by it. -/
structure WordArithmetic (m : Modulus) where
  modulus : Nat256
  reduceWide : Nat512 → Nat256
  inversionExponent : Nat256
  modulus_eq : modulus = m.value
  reduceWide_eq : ∀ number, reduceWide number = m.reduce number
  inversionExponent_eq : inversionExponent = Residue.inversionExponent m

namespace WordArithmetic

variable {m : Modulus} (arithmetic : WordArithmetic m)

def ofBytes? (bytes : Bytes32) : Option Nat256 :=
  let value := Nat256.ofBytes bytes
  if value.lt arithmetic.modulus then some value else none

def ofBytesReduced (bytes : Bytes32) : Nat256 :=
  let value := Nat256.ofBytes bytes
  if value.lt arithmetic.modulus then value else (value.sub arithmetic.modulus).1

/-- The modulus is taken off a sum that has a carry or is not below it. -/
def add (a b : Nat256) : Nat256 :=
  let sum := a.add b
  if sum.2 || !sum.1.lt arithmetic.modulus then (sum.1.sub arithmetic.modulus).1 else sum.1

def sub (a b : Nat256) : Nat256 :=
  let difference := a.sub b
  if difference.2 then (difference.1.add arithmetic.modulus).1 else difference.1

def mul (a b : Nat256) : Nat256 := arithmetic.reduceWide (a.mul b)

def neg (a : Nat256) : Nat256 := arithmetic.sub .zero a

def square (a : Nat256) : Nat256 := arithmetic.mul a a

def double (a : Nat256) : Nat256 := arithmetic.add a a

def pow (a exponent : Nat256) : Nat256 :=
  exponent.foldBits (fun power bit =>
    if bit then arithmetic.mul (arithmetic.square power) a else arithmetic.square power) .one

def invert (a : Nat256) : Option Nat256 :=
  if a.isZero then none else some (arithmetic.pow a arithmetic.inversionExponent)

def operations (squareRoot : Nat256 → Option Nat256) : Operations Nat256 where
  ofBytes? := arithmetic.ofBytes?
  ofBytesReduced := arithmetic.ofBytesReduced
  ofWord := Nat256.ofWord
  neg := arithmetic.neg
  square := arithmetic.square
  double := arithmetic.double
  pow exponent a := arithmetic.pow a exponent
  invert := arithmetic.invert
  squareRoot := squareRoot
  add := arithmetic.add
  sub := arithmetic.sub
  mul := arithmetic.mul

end WordArithmetic

namespace Residue

variable {m : Modulus} (arithmetic : WordArithmetic m) (a b : Residue m)

def operations (m : Modulus) (squareRoot : Residue m → Option (Residue m)) :
    Operations (Residue m) where
  ofBytes? := ofBytes? m
  ofBytesReduced := ofBytesReduced m
  ofWord := ofWord
  neg := neg
  square := square
  double := double
  pow exponent a := a.pow exponent
  invert := invert
  squareRoot := squareRoot
  add := add
  sub := sub
  mul := mul

theorem map_value_ofBytes? (bytes : Bytes32) :
    (ofBytes? m bytes).map value = arithmetic.ofBytes? bytes := by
  unfold ofBytes? ofNat256? WordArithmetic.ofBytes?
  rw [arithmetic.modulus_eq]
  split
  · rename_i below
    exact (if_pos below).symm
  · rename_i notBelow
    exact (if_neg notBelow).symm

theorem value_ofBytesReduced (bytes : Bytes32) :
    (ofBytesReduced m bytes).value = arithmetic.ofBytesReduced bytes := by
  unfold WordArithmetic.ofBytesReduced
  rw [arithmetic.modulus_eq]
  rfl

private theorem or_not_of_not_and {carry below : Bool}
    (large : ¬ (carry = false ∧ below = true)) : (carry || !below) = true := by
  revert carry below
  decide

theorem value_add : (add a b).value = arithmetic.add a.value b.value := by
  rw [WordArithmetic.add, arithmetic.modulus_eq]
  by_cases small : (a.value.add b.value).2 = false ∧ (a.value.add b.value).1.lt m.value = true
  · have sum : (add a b).value = (a.value.add b.value).1 := by
      unfold add
      rw [dif_pos small]
    rw [sum, small.1, small.2]
    rfl
  · have reduced : (add a b).value = ((a.value.add b.value).1.sub m.value).1 := by
      unfold add
      rw [dif_neg small]
    rw [reduced, if_pos (or_not_of_not_and small)]

theorem value_sub : (sub a b).value = arithmetic.sub a.value b.value := by
  rw [WordArithmetic.sub, arithmetic.modulus_eq]
  by_cases wrapped : (a.value.sub b.value).2 = true
  · have added : (sub a b).value = ((a.value.sub b.value).1.add m.value).1 := by
      unfold sub
      rw [dif_pos wrapped]
    rw [added, if_pos wrapped]
  · have kept : (sub a b).value = (a.value.sub b.value).1 := by
      unfold sub
      rw [dif_neg wrapped]
    rw [kept, if_neg wrapped]

theorem value_neg : (neg a).value = arithmetic.neg a.value := value_sub arithmetic zero a

theorem value_mul : (mul a b).value = arithmetic.mul a.value b.value :=
  (arithmetic.reduceWide_eq _).symm

theorem value_square : a.square.value = arithmetic.square a.value := value_mul arithmetic a a

theorem value_double : a.double.value = arithmetic.double a.value := value_add arithmetic a a

theorem value_pow (exponent : Nat256) :
    (a.pow exponent).value = arithmetic.pow a.value exponent := by
  unfold pow WordArithmetic.pow
  rw [exponent.foldBits_image value]
  · rfl
  intro power bit
  have squared := value_square arithmetic power
  cases bit with
  | true =>
    change (mul (square power) a).value = arithmetic.mul (arithmetic.square power.value) a.value
    rw [value_mul arithmetic, squared]
  | false =>
    change (square power).value = arithmetic.square power.value
    exact squared

theorem map_value_invert : a.invert.map value = arithmetic.invert a.value := by
  rw [invert, isZero, WordArithmetic.invert, arithmetic.inversionExponent_eq]
  cases a.value.isZero with
  | true => rfl
  | false =>
    have power := value_pow arithmetic a (inversionExponent m)
    exact congrArg some power

theorem operations_image {squareRoot : Residue m → Option (Residue m)}
    {squareRoot' : Nat256 → Option Nat256}
    (root : ∀ a, (squareRoot a).map value = squareRoot' a.value) :
    (operations m squareRoot).Image (arithmetic.operations squareRoot') value where
  ofBytes? := map_value_ofBytes? arithmetic
  ofBytesReduced := value_ofBytesReduced arithmetic
  ofWord _ := rfl
  neg := value_neg arithmetic
  square := value_square arithmetic
  double a := by
    dsimp only [operations, WordArithmetic.operations]
    exact value_double arithmetic a
  pow exponent a := by
    dsimp only [operations, WordArithmetic.operations]
    exact value_pow arithmetic a exponent
  invert := map_value_invert arithmetic
  squareRoot := root
  add a b := by
    dsimp only [operations, WordArithmetic.operations]
    exact value_add arithmetic a b
  sub := value_sub arithmetic
  mul := value_mul arithmetic

end Residue

/-! The two moduli. -/

namespace FieldElement

def arithmetic : WordArithmetic fieldModulus where
  modulus := ⟨0xfffffffefffffc2f, 0xffffffffffffffff, 0xffffffffffffffff, 0xffffffffffffffff⟩
  reduceWide := reduceWide
  inversionExponent :=
    ⟨0xfffffffefffffc2d, 0xffffffffffffffff, 0xffffffffffffffff, 0xffffffffffffffff⟩
  modulus_eq := rfl
  reduceWide_eq := reduceWide_eq
  inversionExponent_eq := by decide

def squareRootWords (a : Nat256) : Option Nat256 :=
  let root := arithmetic.pow a squareRootExponent
  if arithmetic.square root = a then some root else none

theorem map_value_squareRoot (a : FieldElement) :
    (squareRoot a).map Residue.value = squareRootWords a.value := by
  have found : (a.pow squareRootExponent).value = arithmetic.pow a.value squareRootExponent :=
    Residue.value_pow arithmetic a squareRootExponent
  rw [squareRoot, squareRootWords, ← found]
  generalize a.pow squareRootExponent = root
  have same : root.square = a ↔ arithmetic.square root.value = a.value := by
    rw [← Residue.value_square arithmetic root, ← Nat256.toNat_inj]
    exact Residue.toNat_inj.symm
  simp only [same]
  split
  · rfl
  · rfl

end FieldElement

namespace Scalar

def arithmetic : WordArithmetic groupOrder where
  modulus := ⟨0xbfd25e8cd0364141, 0xbaaedce6af48a03b, 0xfffffffffffffffe, 0xffffffffffffffff⟩
  reduceWide := reduceWide
  inversionExponent :=
    ⟨0xbfd25e8cd036413f, 0xbaaedce6af48a03b, 0xfffffffffffffffe, 0xffffffffffffffff⟩
  modulus_eq := rfl
  reduceWide_eq := reduceWide_eq
  inversionExponent_eq := by decide

def half : Nat256 :=
  ⟨0xdfe92f46681b20a0, 0x5d576e7357a4501d, 0xffffffffffffffff, 0x7fffffffffffffff⟩

theorem isHigh_eq (a : Scalar) : a.isHigh = half.lt a.value := by
  have halved : groupOrder.value.shiftRight 1 = half := by decide
  rw [Residue.isHigh, halved]

end Scalar

end BitcoinSigning
