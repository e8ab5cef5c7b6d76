import BitcoinSigning.Modular.Residue
/-!
Multipliers of points: remainders by the order of the group of secp256k1.
-/

namespace BitcoinSigning

def groupOrder : Modulus where
  value := ⟨0xbfd25e8cd0364141, 0xbaaedce6af48a03b, 0xfffffffffffffffe, 0xffffffffffffffff⟩
  complement := ⟨0x402da1732fc9bebf, 0x4551231950b75fc4, 1, 0⟩
  value_add_complement := by decide
  complement_lt_value := by decide

abbrev Scalar := Residue groupOrder

namespace Scalar

def ofBytes? (bytes : Bytes32) : Option Scalar := Residue.ofBytes? groupOrder bytes

def ofBytesNonzero? (bytes : Bytes32) : Option Scalar :=
  (ofBytes? bytes).filter fun scalar => !scalar.isZero

def ofBytesReduced (bytes : Bytes32) : Scalar := Residue.ofBytesReduced groupOrder bytes

end Scalar

end BitcoinSigning
