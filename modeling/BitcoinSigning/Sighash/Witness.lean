import BitcoinSigning.Sighash.Kind
import BitcoinSigning.Transaction.Encode
/-!
The signature hash of inputs with a witness of version zero. It commits to the
value that is spent, and to digests of the parts of the transaction that its
kind covers, so that they need not be digested again for every input.
-/

namespace BitcoinSigning

inductive SighashError
  | inputOutOfRange (index inputs : Nat)
  deriving DecidableEq, Repr

def SighashError.message : SighashError → String
  | inputOutOfRange index inputs =>
    s!"input index {index} out of range for transaction with {inputs} inputs"

namespace Transaction

def outPointsDigest (transaction : Transaction) : Bytes32 :=
  doubleSha256 (transaction.inputs.flatMap fun input => input.outPoint.encode)

def sequencesDigest (transaction : Transaction) : Bytes32 :=
  doubleSha256 (transaction.inputs.flatMap fun input =>
    Bytes.littleEndian 4 input.sequence.toNat)

def outputsDigest (transaction : Transaction) : Bytes32 :=
  doubleSha256 (transaction.outputs.flatMap Output.encode)

/-- The digest of the outputs that the kind covers, or zeros if there are none. -/
def coveredOutputsDigest (transaction : Transaction) (index : Nat) (kind : SighashKind) :
    Bytes32 :=
  if kind.isNone then Bytes32.zero
  else if kind.isSingle then
    match transaction.outputs[index]? with
    | some output => doubleSha256 output.encode
    | none => Bytes32.zero
  else transaction.outputsDigest

def witnessPreimage (transaction : Transaction) (index : Nat) (input : Input) (script : Bytes)
    (kind : SighashKind) (value : UInt64) : Bytes :=
  let outPoints := if kind.anyoneCanPay then Bytes32.zero else transaction.outPointsDigest
  let sequences :=
    if kind.anyoneCanPay || kind.isNone || kind.isSingle then Bytes32.zero
    else transaction.sequencesDigest
  encodeVersion transaction.version ++ outPoints.bytes ++ sequences.bytes ++
    input.outPoint.encode ++ SizedBytes.encode script ++ Bytes.littleEndian 8 value.toNat ++
    Bytes.littleEndian 4 input.sequence.toNat ++
    (transaction.coveredOutputsDigest index kind).bytes ++
    Bytes.littleEndian 4 transaction.lockTime.toNat ++ Bytes.littleEndian 4 kind.bits.toNat

def witnessSighash (transaction : Transaction) (index : Nat) (script : Bytes) (kind : SighashKind)
    (value : UInt64) : Except SighashError Bytes32 :=
  match transaction.inputs[index]? with
  | some input => .ok (doubleSha256 (transaction.witnessPreimage index input script kind value))
  | none => .error (.inputOutOfRange index transaction.inputs.length)

end Transaction

end BitcoinSigning
