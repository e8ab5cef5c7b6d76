import BitcoinSigning.Script.Instruction
import BitcoinSigning.Sighash.Kind
import BitcoinSigning.Transaction.Encode
/-!
The signature hash of inputs without a witness: a digest of the transaction
with everything left out that the signature does not cover.
-/

namespace BitcoinSigning.Transaction

/-- The digest that stands for an input or an output that does not exist. -/
def missingDigest : Bytes32 :=
  ⟨List.replicate 31 0 ++ [1], rfl⟩

/-- The inputs as the signature of input `index` sees them. Only that input has
a script, the one that it spends. -/
def coveredInputs (transaction : Transaction) (index : Nat) (script : Bytes) (kind : SighashKind) :
    List Input :=
  let script := Script.strip Opcode.codeSeparator script
  if kind.anyoneCanPay then
    (transaction.inputs[index]?.toList).map fun input => { input with script }
  else
    let fixedSequences := !(kind.isNone || kind.isSingle)
    transaction.inputs.mapIdx fun position input =>
      if position = index then { input with script }
      else
        { input with
          script := []
          sequence := if fixedSequences then input.sequence else 0 }

def blankOutput : Output := ⟨0xffffffffffffffff, []⟩

def coveredOutputs (transaction : Transaction) (index : Nat) (kind : SighashKind) : List Output :=
  if kind.isNone then []
  else if kind.isSingle then
    List.replicate index blankOutput ++ transaction.outputs[index]?.toList
  else transaction.outputs

section Outputs

variable {transaction : Transaction} {index : Nat} {kind : SighashKind}

theorem coveredOutputs_of_none (none : kind.base = 2) :
    transaction.coveredOutputs index kind = [] :=
  if_pos (SighashKind.isNone_iff.mpr none)

theorem coveredOutputs_of_single (single : kind.base = 3) :
    transaction.coveredOutputs index kind =
      List.replicate index blankOutput ++ transaction.outputs[index]?.toList := by
  rw [coveredOutputs, if_neg (mt SighashKind.isNone_iff.mp (SighashKind.base_ne_two single)),
    if_pos (SighashKind.isSingle_iff.mpr single)]

theorem coveredOutputs_of_all (notNone : kind.base ≠ 2) (notSingle : kind.base ≠ 3) :
    transaction.coveredOutputs index kind = transaction.outputs := by
  rw [coveredOutputs, if_neg (mt SighashKind.isNone_iff.mp notNone),
    if_neg (mt SighashKind.isSingle_iff.mp notSingle)]

end Outputs

def covered (transaction : Transaction) (index : Nat) (script : Bytes) (kind : SighashKind) :
    Transaction :=
  { transaction with
    inputs := transaction.coveredInputs index script kind
    outputs := transaction.coveredOutputs index kind }

/-- The bytes that are digested, unless there is no such input, or no output for
it where the kind covers that one alone. -/
def sighashPreimage? (transaction : Transaction) (index : Nat) (script : Bytes)
    (kind : SighashKind) : Option Bytes :=
  if transaction.inputs.length ≤ index then none
  else if kind.isSingle ∧ transaction.outputs.length ≤ index then none
  else
    some ((transaction.covered index script kind).encodeWithoutWitness ++
      Bytes.littleEndian 4 kind.bits.toNat)

def sighash (transaction : Transaction) (index : Nat) (script : Bytes) (kind : SighashKind) :
    Bytes32 :=
  match transaction.sighashPreimage? index script kind with
  | some preimage => doubleSha256 preimage
  | none => missingDigest

end BitcoinSigning.Transaction
