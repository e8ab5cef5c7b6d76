import BitcoinSigning.Proofs.Curve.Decoding
import BitcoinSigning.Proofs.Modular.StoredWords
/-!
Computations with stored words, and the same computations with classes of integers. Nothing
checks the words on the way, yet each is the least number of the class that has been computed
in its place. Comparisons, parity and encodings, which look at words, are thereby determined
by classes.
-/

namespace BitcoinSigning

namespace Residue

variable {m : Modulus}

noncomputable def classOperations (m : Modulus)
    (squareRoot : ZMod m.value.toNat → Option (ZMod m.value.toNat)) :
    Operations (ZMod m.value.toNat) where
  ofBytes? bytes :=
    if Bytes.ofBigEndian bytes.bytes < m.value.toNat then
      some (Bytes.ofBigEndian bytes.bytes : ZMod m.value.toNat)
    else none
  ofBytesReduced bytes := (Bytes.ofBigEndian bytes.bytes : ZMod m.value.toNat)
  ofWord word := (word.toNat : ZMod m.value.toNat)
  neg x := -x
  square x := x ^ 2
  double x := x + x
  pow exponent x := x ^ exponent.toNat
  invert x := if x = 0 then none else some x⁻¹
  squareRoot := squareRoot
  add x y := x + y
  sub x y := x - y
  mul x y := x * y

/-! Each operation on residues is the one on their classes. -/

theorem toZMod_natCast (n : Nat) : (n : Residue m).toZMod = (n : ZMod m.value.toNat) :=
  map_natCast (toZModHom m) n

theorem map_toZMod_ofBytes? (bytes : Bytes32) :
    (ofBytes? m bytes).map toZMod =
      if Bytes.ofBigEndian bytes.bytes < m.value.toNat then
        some (Bytes.ofBigEndian bytes.bytes : ZMod m.value.toNat)
      else none := by
  rw [← Nat256.toNat_ofBytes, ofBytes?, ofNat256?]
  by_cases below : (Nat256.ofBytes bytes).lt m.value = true
  · rw [dif_pos below, if_pos ((Nat256.lt_iff _ _).mp below)]
    rfl
  · rw [dif_neg below, if_neg (mt (Nat256.lt_iff _ _).mpr below)]
    rfl

theorem toZMod_square (a : Residue m) : a.square.toZMod = a.toZMod ^ 2 := by
  rw [square_eq]
  exact map_pow (toZModHom m) a 2

theorem toZMod_pow (a : Residue m) (exponent : Nat256) :
    (a.pow exponent).toZMod = a.toZMod ^ exponent.toNat := by
  rw [pow_eq]
  exact map_pow (toZModHom m) a exponent.toNat

theorem toZMod_eq_zero {a : Residue m} : a.toZMod = 0 ↔ a = 0 := by
  rw [← toZMod_zero, toZMod_injective.eq_iff]

theorem map_toZMod_invert [Fact m.value.toNat.Prime] (a : Residue m) :
    a.invert.map toZMod = if a.toZMod = 0 then none else some a.toZMod⁻¹ := by
  by_cases zero : a = 0
  · rw [if_pos (toZMod_eq_zero.mpr zero), zero, invert_zero]
    rfl
  · rw [if_neg (mt toZMod_eq_zero.mp zero), invert_eq zero]
    exact congrArg some (map_inv₀ (toZModHom m) a)

theorem classOperations_image [Fact m.value.toNat.Prime]
    {squareRoot : Residue m → Option (Residue m)}
    {squareRoot' : ZMod m.value.toNat → Option (ZMod m.value.toNat)}
    (root : ∀ a, (squareRoot a).map toZMod = squareRoot' a.toZMod) :
    (operations m squareRoot).Image (classOperations m squareRoot') toZMod where
  ofBytes? := map_toZMod_ofBytes?
  ofBytesReduced bytes := by
    dsimp only [operations, classOperations]
    rw [ofBytesReduced_eq, toZMod_natCast]
  ofWord word := by
    dsimp only [operations, classOperations]
    rw [ofWord_eq, toZMod_natCast]
  neg := toZMod_neg
  square := toZMod_square
  double a := by
    dsimp only [operations, classOperations]
    exact toZMod_add a a
  pow exponent a := by
    dsimp only [operations, classOperations]
    exact toZMod_pow a exponent
  invert := map_toZMod_invert
  squareRoot := root
  add a b := by
    dsimp only [operations, classOperations]
    exact toZMod_add a b
  sub := toZMod_sub
  mul := toZMod_mul

/-! Computations. -/

/-- The three ways to run a program agree: residues are stored as the words, and each word is
the least number of the class. -/
structure Agree (residues : Operations (Residue m)) (words : Operations Nat256)
    (classes : Operations (ZMod m.value.toNat)) (program : List Assignment) : Prop where
  stored : (residues.run program []).map value = words.run program []
  reduced : ∀ word ∈ words.run program [], word.toNat < m.value.toNat
  congruent : (words.run program []).map (fun word => (word.toNat : ZMod m.value.toNat)) =
    classes.run program []

theorem agree_of_images {residues : Operations (Residue m)} {words : Operations Nat256}
    {classes : Operations (ZMod m.value.toNat)} (storing : residues.Image words value)
    (casting : residues.Image classes toZMod) (program : List Assignment) :
    Agree residues words classes program := by
  have stored : (residues.run program []).map value = words.run program [] :=
    storing.run program []
  have cast : (residues.run program []).map toZMod = classes.run program [] :=
    casting.run program []
  refine ⟨stored, ?_, ?_⟩
  · rw [← stored]
    intro word made
    obtain ⟨a, -, rfl⟩ := List.mem_map.mp made
    exact a.reduced
  · rw [← stored, List.map_map, ← cast]
    rfl

/-- What is asked about the stored word, answered by the class. -/
structure DeterminedByClass (a : Residue m) : Prop where
  eq_iff : ∀ b, a = b ↔ a.toZMod = b.toZMod
  isZero_iff : a.isZero = true ↔ a.toZMod = 0
  isOdd_iff : a.isOdd = true ↔ a.toZMod.val % 2 = 1
  toBytes_eq : a.toBytes.bytes = Bytes.bigEndian 32 a.toZMod.val

theorem val_toZMod (a : Residue m) : a.toZMod.val = a.toNat :=
  ZMod.val_cast_of_lt a.toNat_lt

theorem bytes_toBytes (a : Residue m) : a.toBytes.bytes = Bytes.bigEndian 32 a.toNat := by
  have width : a.value.toBytes.bytes.reverse.length = 32 := by
    rw [List.length_reverse, Bytes32.length_eq]
  rw [toNat, ← Nat256.ofBigEndian_toBytes, Bytes.ofBigEndian_eq_ofLittleEndian_reverse,
    Bytes.bigEndian, ← width, Bytes.littleEndian_ofLittleEndian, List.reverse_reverse, toBytes]

theorem determinedByClass (a : Residue m) : a.DeterminedByClass where
  eq_iff b := toZMod_injective.eq_iff.symm
  isZero_iff := by rw [isZero_eq_true, toZMod_eq_zero]
  isOdd_iff := by rw [val_toZMod, isOdd_iff]
  toBytes_eq := by rw [val_toZMod, bytes_toBytes]

end Residue

namespace FieldElement

open Classical in
noncomputable def classSquareRoot (x : ZMod fieldModulus.value.toNat) :
    Option (ZMod fieldModulus.value.toNat) :=
  if IsSquare x then some (x ^ ((fieldModulus.value.toNat + 1) / 4)) else none

theorem square_pow_eq_iff (a : FieldElement) :
    (a.pow squareRootExponent).square = a ↔ IsSquare a := by
  constructor
  · intro square
    refine ⟨a.pow squareRootExponent, ?_⟩
    rw [← pow_two, ← Residue.square_eq, square]
  · rintro ⟨y, rfl⟩
    obtain ⟨root, found⟩ := squareRoot_of_pow_two y
    rw [pow_two, squareRoot] at found
    by_contra missing
    rw [if_neg missing] at found
    cases found

theorem isSquare_toZMod_iff (a : FieldElement) : IsSquare a.toZMod ↔ IsSquare a := by
  constructor
  · rintro ⟨y, equation⟩
    obtain ⟨b, rfl⟩ := Residue.toZMod_surjective y
    rw [← Residue.toZMod_mul] at equation
    exact ⟨b, Residue.toZMod_injective equation⟩
  · exact IsSquare.map (Residue.toZModHom fieldModulus)

theorem map_toZMod_squareRoot (a : FieldElement) :
    (squareRoot a).map Residue.toZMod = classSquareRoot a.toZMod := by
  have exponent : squareRootExponent.toNat = (fieldModulus.value.toNat + 1) / 4 := by decide
  have root : (a.pow squareRootExponent).toZMod =
      a.toZMod ^ ((fieldModulus.value.toNat + 1) / 4) := by
    rw [Residue.toZMod_pow, exponent]
  have square := square_pow_eq_iff a
  rw [← isSquare_toZMod_iff] at square
  rw [squareRoot, classSquareRoot, ← root]
  generalize a.pow squareRootExponent = power at square
  by_cases hasRoot : IsSquare a.toZMod
  · rw [if_pos hasRoot, if_pos (square.mpr hasRoot)]
    rfl
  · rw [if_neg hasRoot, if_neg (mt square.mp hasRoot)]
    rfl

theorem pow_two_of_classSquareRoot {x root : ZMod fieldModulus.value.toNat}
    (found : classSquareRoot x = some root) : root ^ 2 = x := by
  obtain ⟨a, rfl⟩ := Residue.toZMod_surjective x
  rw [← map_toZMod_squareRoot, Option.map_eq_some_iff] at found
  obtain ⟨b, isRoot, rfl⟩ := found
  rw [← Residue.toZMod_square, Residue.square_eq, squareRoot_pow_two isRoot]

end FieldElement

namespace Scalar

theorem isHigh_iff (a : Scalar) :
    a.isHigh = true ↔ groupOrder.value.toNat / 2 < a.toZMod.val := by
  have halved : half.toNat = groupOrder.value.toNat / 2 := by decide
  rw [isHigh_eq, Nat256.lt_iff, halved, Residue.val_toZMod]
  rfl

end Scalar

namespace Residue

/-- Every word that is computed by either modulus is below it and in the class that is computed
there; roots of classes are roots, and what is asked about a word depends on its class. -/
theorem run_canonical (program : List Assignment) :
    Agree (operations fieldModulus FieldElement.squareRoot)
      (FieldElement.arithmetic.operations FieldElement.squareRootWords)
      (classOperations fieldModulus FieldElement.classSquareRoot) program ∧
    Agree (operations groupOrder fun _ => none)
      (Scalar.arithmetic.operations fun _ => none)
      (classOperations groupOrder fun _ => none) program ∧
    (∀ x root, FieldElement.classSquareRoot x = some root → root ^ 2 = x) ∧
    (∀ a : FieldElement, a.DeterminedByClass) ∧
    (∀ a : Scalar, a.DeterminedByClass ∧
      (a.isHigh = true ↔ groupOrder.value.toNat / 2 < a.toZMod.val)) := by
  refine ⟨?_, ?_, ?_, determinedByClass, fun a => ⟨a.determinedByClass, Scalar.isHigh_iff a⟩⟩
  · apply agree_of_images
    · exact operations_image FieldElement.arithmetic FieldElement.map_value_squareRoot
    · exact classOperations_image FieldElement.map_toZMod_squareRoot
  · apply agree_of_images
    · exact operations_image Scalar.arithmetic fun _ => rfl
    · exact classOperations_image fun _ => rfl
  · intro x root found
    exact FieldElement.pow_two_of_classSquareRoot found

/-- One, its negative, and their sum, which is the modulus before it is reduced. -/
def opposites : List Assignment := [.constant (.word 1), .unary .neg 0, .binary .add 0 1]

theorem run_canonical_opposites :
    (FieldElement.arithmetic.operations FieldElement.squareRootWords).run opposites [] =
      [.one, (fieldModulus.value.sub .one).1, .zero] ∧
    (∀ word ∈ (FieldElement.arithmetic.operations FieldElement.squareRootWords).run opposites [],
      word.toNat < fieldModulus.value.toNat) ∧
    FieldElement.classSquareRoot 1 = some 1 ∧
    (1 : ZMod fieldModulus.value.toNat) ^ 2 = 1 := by
  have root : FieldElement.classSquareRoot 1 = some 1 := by
    rw [FieldElement.classSquareRoot, if_pos .one, one_pow]
  obtain ⟨field, -, roots, -, -⟩ := run_canonical opposites
  exact ⟨by decide +kernel, field.reduced, root, roots 1 1 root⟩

end Residue

end BitcoinSigning
