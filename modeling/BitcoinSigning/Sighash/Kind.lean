/-!
Kinds of signature hashes: how much of a transaction a signature commits to.
-/

namespace BitcoinSigning

structure SighashKind where
  bits : UInt32
  deriving DecidableEq

namespace SighashKind

/-- The lowest five bits tell which outputs are covered. -/
def base (kind : SighashKind) : UInt32 := kind.bits &&& 0x1f

def isNone (kind : SighashKind) : Bool := kind.base == 2

def isSingle (kind : SighashKind) : Bool := kind.base == 3

/-- Only the input that is signed is covered. -/
def anyoneCanPay (kind : SighashKind) : Bool := kind.bits &&& 0x80 != 0

variable {kind : SighashKind}

@[simp]
theorem isNone_iff : kind.isNone = true ↔ kind.base = 2 := beq_iff_eq

@[simp]
theorem isSingle_iff : kind.isSingle = true ↔ kind.base = 3 := beq_iff_eq

@[simp]
theorem anyoneCanPay_iff : kind.anyoneCanPay = true ↔ kind.bits &&& 0x80 ≠ 0 := bne_iff_ne

theorem anyoneCanPay_eq_false_iff : kind.anyoneCanPay = false ↔ kind.bits &&& 0x80 = 0 := by
  rw [anyoneCanPay, bne_eq_false_iff_eq]

theorem isNone_or_isSingle_eq_false_iff :
    (kind.isNone || kind.isSingle) = false ↔ kind.base ≠ 2 ∧ kind.base ≠ 3 := by
  rw [Bool.or_eq_false_iff, isNone, isSingle, beq_eq_false_iff_ne, beq_eq_false_iff_ne]

theorem base_ne_two (single : kind.base = 3) : kind.base ≠ 2 := by
  rw [single]
  decide

def toText (kind : SighashKind) : String :=
  let outputs := if kind.isNone then "NONE" else if kind.isSingle then "SINGLE" else "ALL"
  if kind.anyoneCanPay then outputs ++ "|ANYONECANPAY" else outputs

end SighashKind

end BitcoinSigning
