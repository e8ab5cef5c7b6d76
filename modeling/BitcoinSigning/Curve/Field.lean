import BitcoinSigning.Modular.Residue
/-!
The field over which secp256k1 is defined: remainders by the prime
`2 ^ 256 - 2 ^ 32 - 977`.
-/

namespace BitcoinSigning

def fieldModulus : Modulus where
  value := ⟨0xfffffffefffffc2f, 0xffffffffffffffff, 0xffffffffffffffff, 0xffffffffffffffff⟩
  complement := ⟨0x1000003d1, 0, 0, 0⟩
  value_add_complement := by decide
  complement_lt_value := by decide

abbrev FieldElement := Residue fieldModulus

namespace FieldElement

def ofBytes? (bytes : Bytes32) : Option FieldElement := Residue.ofBytes? fieldModulus bytes

/-- A quarter of the modulus plus one. The modulus is three more than a multiple
of four, so this power of a square is one of its roots. -/
def squareRootExponent : Nat256 :=
  ⟨0xffffffffbfffff0c, 0xffffffffffffffff, 0xffffffffffffffff, 0x3fffffffffffffff⟩

def squareRoot (a : FieldElement) : Option FieldElement :=
  let root := a.pow squareRootExponent
  if root.square = a then some root else none

end FieldElement

end BitcoinSigning
