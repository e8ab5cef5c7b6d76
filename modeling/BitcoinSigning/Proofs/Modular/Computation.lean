import BitcoinSigning.Bytes
import BitcoinSigning.Limbs.Nat256
/-!
Sequences of arithmetic operations, over any kind of value. A computation makes one value
after another from those that were made before. If a function carries each operation on one
kind of value to that on another, it carries all the values of a computation.
-/

namespace BitcoinSigning

/-- Values that come from outside: bytes that are refused or reduced if they spell too large
a number, and words. -/
inductive Constant
  | bytes (value : Bytes32)
  | reducedBytes (value : Bytes32)
  | word (value : UInt64)

inductive UnaryOperation
  | neg
  | square
  | double
  | pow (exponent : Nat256)
  | invert
  | squareRoot

inductive BinaryOperation
  | add
  | sub
  | mul

structure Operations (α : Type) where
  ofBytes? : Bytes32 → Option α
  ofBytesReduced : Bytes32 → α
  ofWord : UInt64 → α
  neg : α → α
  square : α → α
  double : α → α
  pow : Nat256 → α → α
  invert : α → Option α
  squareRoot : α → Option α
  add : α → α → α
  sub : α → α → α
  mul : α → α → α

/-- One operation on values, which are numbered in the order in which they were made. -/
inductive Assignment
  | constant (value : Constant)
  | unary (operation : UnaryOperation) (i : Nat)
  | binary (operation : BinaryOperation) (i j : Nat)

namespace Operations

variable {α β : Type}

def constant (ops : Operations α) : Constant → Option α
  | .bytes value => ops.ofBytes? value
  | .reducedBytes value => some (ops.ofBytesReduced value)
  | .word value => some (ops.ofWord value)

def unary (ops : Operations α) : UnaryOperation → α → Option α
  | .neg, a => some (ops.neg a)
  | .square, a => some (ops.square a)
  | .double, a => some (ops.double a)
  | .pow exponent, a => some (ops.pow exponent a)
  | .invert, a => ops.invert a
  | .squareRoot, a => ops.squareRoot a

def binary (ops : Operations α) : BinaryOperation → α → α → α
  | .add => ops.add
  | .sub => ops.sub
  | .mul => ops.mul

def step (ops : Operations α) (values : List α) : Assignment → Option α
  | .constant value => ops.constant value
  | .unary operation i => do ops.unary operation (← values[i]?)
  | .binary operation i j => do return ops.binary operation (← values[i]?) (← values[j]?)

def run (ops : Operations α) : List Assignment → List α → List α
  | [], values => values
  | assignment :: program, values =>
    ops.run program (values ++ (ops.step values assignment).toList)

/-- The function carries each operation on one kind of value to that on the other. -/
structure Image (ops : Operations α) (ops' : Operations β) (image : α → β) : Prop where
  ofBytes? : ∀ value, (ops.ofBytes? value).map image = ops'.ofBytes? value
  ofBytesReduced : ∀ value, image (ops.ofBytesReduced value) = ops'.ofBytesReduced value
  ofWord : ∀ value, image (ops.ofWord value) = ops'.ofWord value
  neg : ∀ a, image (ops.neg a) = ops'.neg (image a)
  square : ∀ a, image (ops.square a) = ops'.square (image a)
  double : ∀ a, image (ops.double a) = ops'.double (image a)
  pow : ∀ exponent a, image (ops.pow exponent a) = ops'.pow exponent (image a)
  invert : ∀ a, (ops.invert a).map image = ops'.invert (image a)
  squareRoot : ∀ a, (ops.squareRoot a).map image = ops'.squareRoot (image a)
  add : ∀ a b, image (ops.add a b) = ops'.add (image a) (image b)
  sub : ∀ a b, image (ops.sub a b) = ops'.sub (image a) (image b)
  mul : ∀ a b, image (ops.mul a b) = ops'.mul (image a) (image b)

variable {ops : Operations α} {ops' : Operations β} {image : α → β}

theorem Image.constant (carried : Image ops ops' image) (value : Constant) :
    (ops.constant value).map image = ops'.constant value := by
  cases value with
  | bytes value => exact carried.ofBytes? value
  | reducedBytes value => exact congrArg some (carried.ofBytesReduced value)
  | word value => exact congrArg some (carried.ofWord value)

theorem Image.unary (carried : Image ops ops' image) (operation : UnaryOperation) (a : α) :
    (ops.unary operation a).map image = ops'.unary operation (image a) := by
  cases operation with
  | neg => exact congrArg some (carried.neg a)
  | square => exact congrArg some (carried.square a)
  | double => exact congrArg some (carried.double a)
  | pow exponent => exact congrArg some (carried.pow exponent a)
  | invert => exact carried.invert a
  | squareRoot => exact carried.squareRoot a

theorem Image.binary (carried : Image ops ops' image) (operation : BinaryOperation) (a b : α) :
    image (ops.binary operation a b) = ops'.binary operation (image a) (image b) := by
  cases operation with
  | add => exact carried.add a b
  | sub => exact carried.sub a b
  | mul => exact carried.mul a b

theorem Image.step (carried : Image ops ops' image) (values : List α) (assignment : Assignment) :
    (ops.step values assignment).map image = ops'.step (values.map image) assignment := by
  cases assignment with
  | constant value => exact carried.constant value
  | unary operation i =>
    rw [Operations.step, Operations.step, List.getElem?_map]
    cases values[i]? with
    | none => rfl
    | some a => exact carried.unary operation a
  | binary operation i j =>
    rw [Operations.step, Operations.step, List.getElem?_map, List.getElem?_map]
    cases values[i]? with
    | none => rfl
    | some a =>
      cases values[j]? with
      | none => rfl
      | some b => exact congrArg some (carried.binary operation a b)

theorem Image.run (carried : Image ops ops' image) (program : List Assignment) (values : List α) :
    (ops.run program values).map image = ops'.run program (values.map image) := by
  induction program generalizing values with
  | nil => rfl
  | cons assignment program ih =>
    rw [Operations.run, Operations.run, ih, List.map_append, ← carried.step, Option.toList_map]

end Operations

end BitcoinSigning
