import BitcoinSigning.Encoding.CompactSize
import BitcoinSigning.Hash.Digest
import BitcoinSigning.Transaction.Basic
/-!
The bytes of transactions and of their parts, the sizes of those bytes, and the
identifiers that are digests of them. A transaction with a witness is written
with a marker before its inputs and the witnesses after its outputs.
-/

namespace BitcoinSigning

namespace OutPoint

def encode (outPoint : OutPoint) : Bytes :=
  outPoint.hash.bytes ++ Bytes.littleEndian 4 outPoint.index.toNat

def encodedSize (_ : OutPoint) : Nat := 36

theorem length_encode (outPoint : OutPoint) : outPoint.encode.length = outPoint.encodedSize := by
  rw [encode, List.length_append, outPoint.hash.length_eq, Bytes.length_littleEndian, encodedSize]

end OutPoint

def totalSize {α : Type} (size : α → Nat) (parts : List α) : Nat :=
  parts.foldr (fun part total => size part + total) 0

theorem length_flatMap_eq {α : Type} {encode : α → Bytes} {size : α → Nat}
    (each : ∀ part, (encode part).length = size part) (parts : List α) :
    (parts.flatMap encode).length = totalSize size parts := by
  induction parts with
  | nil => rfl
  | cons part parts ih =>
    rw [List.flatMap_cons, List.length_append, each, ih]
    rfl

namespace Witness

def encode (witness : Witness) : Bytes :=
  CompactSize.encode witness.length.toUInt64 ++ witness.flatMap SizedBytes.encode

def encodedSize (witness : Witness) : Nat :=
  CompactSize.encodedSize witness.length.toUInt64 + totalSize SizedBytes.encodedSize witness

theorem length_encode (witness : Witness) : (encode witness).length = encodedSize witness := by
  rw [encode, encodedSize, List.length_append, CompactSize.length_encode,
    length_flatMap_eq SizedBytes.length_encode]

end Witness

namespace Input

def encode (input : Input) : Bytes :=
  input.outPoint.encode ++ SizedBytes.encode input.script ++
    Bytes.littleEndian 4 input.sequence.toNat

def encodedSize (input : Input) : Nat :=
  input.outPoint.encodedSize + SizedBytes.encodedSize input.script + 4

theorem length_encode (input : Input) : input.encode.length = input.encodedSize := by
  rw [encode, encodedSize, List.length_append, List.length_append, OutPoint.length_encode,
    SizedBytes.length_encode, Bytes.length_littleEndian]

end Input

namespace Output

def encode (output : Output) : Bytes :=
  Bytes.littleEndian 8 output.value.toNat ++ SizedBytes.encode output.script

def encodedSize (output : Output) : Nat :=
  8 + SizedBytes.encodedSize output.script

theorem length_encode (output : Output) : output.encode.length = output.encodedSize := by
  rw [encode, encodedSize, List.length_append, Bytes.length_littleEndian, SizedBytes.length_encode]

end Output

namespace Transaction

def encodeInputs (inputs : List Input) : Bytes :=
  CompactSize.encode inputs.length.toUInt64 ++ inputs.flatMap Input.encode

def encodeOutputs (outputs : List Output) : Bytes :=
  CompactSize.encode outputs.length.toUInt64 ++ outputs.flatMap Output.encode

def encodeWitnesses (inputs : List Input) : Bytes :=
  inputs.flatMap fun input => input.witness.encode

def inputsSize (inputs : List Input) : Nat :=
  CompactSize.encodedSize inputs.length.toUInt64 + totalSize Input.encodedSize inputs

def outputsSize (outputs : List Output) : Nat :=
  CompactSize.encodedSize outputs.length.toUInt64 + totalSize Output.encodedSize outputs

/-- Marker and flag of a transaction with witnesses. The marker stands where a
count of inputs would, and is none. -/
def segwitMarker : UInt8 := 0x00

def segwitFlag : UInt8 := 0x01

def encodeVersion (version : Int32) : Bytes :=
  Bytes.littleEndian 4 version.toUInt32.toNat

def encodeWithoutWitness (transaction : Transaction) : Bytes :=
  encodeVersion transaction.version ++ encodeInputs transaction.inputs ++
    encodeOutputs transaction.outputs ++ Bytes.littleEndian 4 transaction.lockTime.toNat

def encodeWithWitness (transaction : Transaction) : Bytes :=
  encodeVersion transaction.version ++ [segwitMarker, segwitFlag] ++
    encodeInputs transaction.inputs ++ encodeOutputs transaction.outputs ++
    encodeWitnesses transaction.inputs ++
    Bytes.littleEndian 4 transaction.lockTime.toNat

def encode (transaction : Transaction) : Bytes :=
  if transaction.hasWitness then transaction.encodeWithWitness
  else transaction.encodeWithoutWitness

def sizeWithoutWitness (transaction : Transaction) : Nat :=
  4 + inputsSize transaction.inputs + outputsSize transaction.outputs + 4

def witnessesSize (inputs : List Input) : Nat :=
  totalSize (fun input => input.witness.encodedSize) inputs

def sizeWithWitness (transaction : Transaction) : Nat :=
  transaction.sizeWithoutWitness + 2 + witnessesSize transaction.inputs

def encodedSize (transaction : Transaction) : Nat :=
  if transaction.hasWitness then transaction.sizeWithWitness
  else transaction.sizeWithoutWitness

theorem length_encodeInputs (inputs : List Input) :
    (encodeInputs inputs).length = inputsSize inputs := by
  rw [encodeInputs, inputsSize, List.length_append, CompactSize.length_encode,
    length_flatMap_eq Input.length_encode]

theorem length_encodeOutputs (outputs : List Output) :
    (encodeOutputs outputs).length = outputsSize outputs := by
  rw [encodeOutputs, outputsSize, List.length_append, CompactSize.length_encode,
    length_flatMap_eq Output.length_encode]

theorem length_encodeWitnesses (inputs : List Input) :
    (encodeWitnesses inputs).length = witnessesSize inputs := by
  rw [encodeWitnesses, witnessesSize,
    length_flatMap_eq fun input : Input => Witness.length_encode input.witness]

theorem length_encodeWithoutWitness (transaction : Transaction) :
    transaction.encodeWithoutWitness.length = transaction.sizeWithoutWitness := by
  simp only [encodeWithoutWitness, sizeWithoutWitness, encodeVersion, List.length_append,
    length_encodeInputs, length_encodeOutputs, Bytes.length_littleEndian]

theorem length_encodeWithWitness (transaction : Transaction) :
    transaction.encodeWithWitness.length = transaction.sizeWithWitness := by
  simp only [encodeWithWitness, sizeWithWitness, sizeWithoutWitness, encodeVersion,
    List.length_append, List.length_cons, List.length_nil, length_encodeInputs,
    length_encodeOutputs, length_encodeWitnesses, Bytes.length_littleEndian]
  omega

theorem length_encode (transaction : Transaction) :
    transaction.encode.length = transaction.encodedSize := by
  rw [encode, encodedSize]
  split
  · exact transaction.length_encodeWithWitness
  · exact transaction.length_encodeWithoutWitness

def toText (transaction : Transaction) : String := transaction.encode.toHex

/-- The identifier that witnesses do not enter, in the order of its digest. -/
def id (transaction : Transaction) : Bytes32 :=
  doubleSha256 transaction.encodeWithoutWitness

def witnessId (transaction : Transaction) : Bytes32 :=
  doubleSha256 transaction.encode

end Transaction

end BitcoinSigning
