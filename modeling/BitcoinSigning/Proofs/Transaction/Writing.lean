import BitcoinSigning.Proofs.Encoding.Writing
import BitcoinSigning.Proofs.Transaction.Identifiers
/-!
Transactions written part by part, with a length that is added up on the way. The lengths of
fixed fields are constants beside the bytes that they count, so that the sum and the bytes could
differ; they never do, for any transaction and for any of its parts.
-/

namespace BitcoinSigning

variable {σ α : Type}

/-- The parts of a list in turn, with what is counted for each added to the length so far. -/
def writeEach (write : α → Writing σ Nat) (parts : List α) (length : Nat) : Writing σ Nat :=
  parts.foldlM (fun length part => do return length + (← write part)) length

def OutPoint.write (outPoint : OutPoint) (w : Writer σ) : Writing σ Nat := do
  w.writeAll outPoint.hash.bytes
  w.writeAll (Bytes.littleEndian 4 outPoint.index.toNat)
  return 36

def Input.write (input : Input) (w : Writer σ) : Writing σ Nat := do
  let outPoint ← input.outPoint.write w
  let script ← SizedBytes.write input.script w
  w.writeAll (Bytes.littleEndian 4 input.sequence.toNat)
  return outPoint + script + 4

def Output.write (output : Output) (w : Writer σ) : Writing σ Nat := do
  w.writeAll (Bytes.littleEndian 8 output.value.toNat)
  return 8 + (← SizedBytes.write output.script w)

def Witness.write (witness : Witness) (w : Writer σ) : Writing σ Nat := do
  let length ← CompactSize.write witness.length.toUInt64 w
  writeEach (fun item => SizedBytes.write item w) witness length

namespace Transaction

def writeWitnesses (segwit : Bool) (inputs : List Input) (w : Writer σ) (length : Nat) :
    Writing σ Nat :=
  if segwit then writeEach (fun input => input.witness.write w) inputs length else pure length

def writeHead (segwit : Bool) (version : Int32) (w : Writer σ) : Writing σ Nat := do
  w.writeAll (encodeVersion version)
  if segwit then
    w.writeAll [segwitMarker, segwitFlag]
    return 4 + 2
  else return 4

def writeAs (segwit : Bool) (transaction : Transaction) (w : Writer σ) : Writing σ Nat := do
  let head ← writeHead segwit transaction.version w
  let count ← CompactSize.write transaction.inputs.length.toUInt64 w
  let length ← writeEach (fun input => input.write w) transaction.inputs (head + count)
  let count ← CompactSize.write transaction.outputs.length.toUInt64 w
  let length ← writeEach (fun output => output.write w) transaction.outputs (length + count)
  let length ← writeWitnesses segwit transaction.inputs w length
  w.writeAll (Bytes.littleEndian 4 transaction.lockTime.toNat)
  return length + 4

def writeWith (includeWitness : Bool) (transaction : Transaction) (w : Writer σ) :
    Writing σ Nat :=
  transaction.writeAs (includeWitness && transaction.hasWitness) w

def write (transaction : Transaction) (w : Writer σ) : Writing σ Nat := transaction.writeWith true w

def sizeAs (segwit : Bool) (transaction : Transaction) : Nat :=
  if segwit then transaction.sizeWithWitness else transaction.sizeWithoutWitness

theorem length_encodeAs (segwit : Bool) (transaction : Transaction) :
    (transaction.encodeAs segwit).length = transaction.sizeAs segwit := by
  cases segwit with
  | false => exact transaction.length_encodeWithoutWitness
  | true => exact transaction.length_encodeWithWitness

theorem sizeAs_eq (segwit : Bool) (transaction : Transaction) :
    transaction.sizeAs segwit = (if segwit then 4 + 2 else 4) +
      CompactSize.encodedSize transaction.inputs.length.toUInt64 +
        totalSize Input.encodedSize transaction.inputs +
          CompactSize.encodedSize transaction.outputs.length.toUInt64 +
            totalSize Output.encodedSize transaction.outputs +
              (if segwit then witnessesSize transaction.inputs else 0) + 4 := by
  cases segwit with
  | false =>
    simp only [sizeAs, sizeWithoutWitness, inputsSize, outputsSize, Bool.false_eq_true, if_false]
    omega
  | true =>
    simp only [sizeAs, sizeWithWitness, sizeWithoutWitness, inputsSize, outputsSize, if_true]
    omega

theorem encodeAs_eq_parts (segwit : Bool) (transaction : Transaction) :
    transaction.encodeAs segwit = (encodeVersion transaction.version ++
      if segwit then [segwitMarker, segwitFlag] else []) ++
        (CompactSize.encode transaction.inputs.length.toUInt64 ++
          (transaction.inputs.flatMap Input.encode ++
            (CompactSize.encode transaction.outputs.length.toUInt64 ++
              (transaction.outputs.flatMap Output.encode ++
                ((if segwit then encodeWitnesses transaction.inputs else []) ++
                  Bytes.littleEndian 4 transaction.lockTime.toNat))))) := by
  simp only [encodeAs_eq, encodeInputCount, encodeOutputs, List.append_assoc]

end Transaction

/-! What the parts write. -/

namespace Emits

variable {w : Writer σ}

theorem each {write : α → Writing σ Nat} {size : α → Nat} {encode : α → Bytes}
    (one : ∀ part, Emits w (write part) (size part) (encode part)) (parts : List α) (length : Nat) :
    Emits w (writeEach write parts length) (length + totalSize size parts)
      (parts.flatMap encode) := by
  induction parts generalizing length with
  | nil => exact pure w length
  | cons part parts ih =>
    have others := ih (length + size part)
    rw [Nat.add_assoc] at others
    rw [List.flatMap_cons]
    exact bind (bind (one part) (pure w _) (List.append_nil _)) others rfl

variable (takesAll : w.TakesAll)

include takesAll

theorem outPoint (outPoint : OutPoint) :
    Emits w (outPoint.write w) outPoint.encodedSize outPoint.encode :=
  bind (writeAll takesAll outPoint.hash.bytes)
    (bind (writeAll takesAll _) (pure w 36) (List.append_nil _)) rfl

theorem input (input : Input) : Emits w (input.write w) input.encodedSize input.encode := by
  rw [Input.encode, List.append_assoc]
  exact bind (outPoint takesAll input.outPoint) (bind (sizedBytes takesAll input.script)
    (bind (writeAll takesAll _) (pure w _) (List.append_nil _)) rfl) rfl

theorem output (output : Output) : Emits w (output.write w) output.encodedSize output.encode :=
  bind (writeAll takesAll _) (bind (sizedBytes takesAll output.script) (pure w _)
    (List.append_nil _)) rfl

theorem witness (witness : Witness) :
    Emits w (witness.write w) witness.encodedSize witness.encode :=
  bind (compactSize takesAll witness.length.toUInt64) (each (sizedBytes takesAll) witness _) rfl

theorem head (segwit : Bool) (version : Int32) :
    Emits w (Transaction.writeHead segwit version w) (if segwit then 4 + 2 else 4)
      (Transaction.encodeVersion version ++
        if segwit then [Transaction.segwitMarker, Transaction.segwitFlag] else []) := by
  refine bind (writeAll takesAll (Transaction.encodeVersion version)) ?_ rfl
  cases segwit with
  | false => exact pure w 4
  | true => exact bind (writeAll takesAll _) (pure w 6) (List.append_nil _)

theorem witnesses (segwit : Bool) (inputs : List Input) (length : Nat) :
    Emits w (Transaction.writeWitnesses segwit inputs w length)
      (length + if segwit then Transaction.witnessesSize inputs else 0)
      (if segwit then Transaction.encodeWitnesses inputs else []) := by
  cases segwit with
  | false => exact pure w length
  | true => exact each (fun input : Input => witness takesAll input.witness) inputs length

theorem transactionAs (segwit : Bool) (transaction : Transaction) :
    Emits w (transaction.writeAs segwit w) (transaction.sizeAs segwit)
      (transaction.encodeAs segwit) := by
  rw [Transaction.sizeAs_eq, Transaction.encodeAs_eq_parts]
  refine bind (head takesAll segwit transaction.version) ?_ rfl
  refine bind (compactSize takesAll transaction.inputs.length.toUInt64) ?_ rfl
  refine bind (each (input takesAll) transaction.inputs _) ?_ rfl
  refine bind (compactSize takesAll transaction.outputs.length.toUInt64) ?_ rfl
  refine bind (each (output takesAll) transaction.outputs _) ?_ rfl
  refine bind (witnesses takesAll segwit transaction.inputs _) ?_ rfl
  exact bind (writeAll takesAll _) (pure w _) (List.append_nil _)

end Emits

namespace Transaction

theorem counts_writeAs (segwit : Bool) (transaction : Transaction) :
    Counts (fun _ w => transaction.writeAs segwit w) (transaction.encodeAs segwit)
      (transaction.sizeAs segwit) :=
  counts_of_emits (transaction.length_encodeAs segwit)
    fun _ _ takesAll => Emits.transactionAs takesAll segwit transaction

theorem counts_writeWith (includeWitness : Bool) (transaction : Transaction) :
    Counts (fun _ w => transaction.writeWith includeWitness w)
      (if includeWitness then transaction.encode else transaction.encodeWithoutWitness)
      (if includeWitness then transaction.encodedSize else transaction.sizeWithoutWitness) := by
  cases includeWitness with
  | false => exact transaction.counts_writeAs false
  | true => exact transaction.counts_writeAs transaction.hasWitness

theorem length_encode_eq_add (transaction : Transaction) :
    transaction.encode.length = transaction.encodeWithoutWitness.length +
      if transaction.hasWitness then
        2 + totalSize (fun input => input.witness.encode.length) transaction.inputs
      else 0 := by
  have witnesses : totalSize (fun input => input.witness.encode.length) transaction.inputs =
      witnessesSize transaction.inputs := by
    simp only [Witness.length_encode, witnessesSize]
  rw [witnesses, length_encode, length_encodeWithoutWitness, encodedSize]
  split
  · rw [sizeWithWitness, Nat.add_assoc]
  · rfl

end Transaction

/-- What is counted along with the bytes of a part or of a whole transaction is the number of
bytes that any writer takes which takes everything, and is what a counter counts. -/
theorem sizes_count_written_bytes :
    (∀ outPoint : OutPoint,
      Counts (fun _ w => outPoint.write w) outPoint.encode outPoint.encodedSize) ∧
    (∀ input : Input, Counts (fun _ w => input.write w) input.encode input.encodedSize) ∧
    (∀ output : Output, Counts (fun _ w => output.write w) output.encode output.encodedSize) ∧
    (∀ witness : Witness,
      Counts (fun _ w => witness.write w) witness.encode witness.encodedSize) ∧
    ∀ transaction : Transaction,
      Counts (fun _ w => transaction.write w) transaction.encode transaction.encodedSize ∧
      (∀ includeWitness, Counts (fun _ w => transaction.writeWith includeWitness w)
        (if includeWitness then transaction.encode else transaction.encodeWithoutWitness)
        (if includeWitness then transaction.encodedSize else transaction.sizeWithoutWitness)) ∧
      transaction.encode.length = transaction.encodeWithoutWitness.length +
        if transaction.hasWitness then
          2 + totalSize (fun input => input.witness.encode.length) transaction.inputs
        else 0 := by
  refine ⟨?outPoints, ?inputs, ?outputs, ?witnesses, ?transactions⟩
  case outPoints =>
    exact fun outPoint => counts_of_emits outPoint.length_encode
      fun _ _ takesAll => Emits.outPoint takesAll outPoint
  case inputs =>
    exact fun input => counts_of_emits input.length_encode
      fun _ _ takesAll => Emits.input takesAll input
  case outputs =>
    exact fun output => counts_of_emits output.length_encode
      fun _ _ takesAll => Emits.output takesAll output
  case witnesses =>
    exact fun witness => counts_of_emits witness.length_encode
      fun _ _ takesAll => Emits.witness takesAll witness
  case transactions =>
    intro transaction
    exact ⟨transaction.counts_writeWith true, transaction.counts_writeWith,
      transaction.length_encode_eq_add⟩

def Writer.oneByOne : Writer Bytes where
  write bytes kept := (.ok 1, kept ++ bytes.take 1)

theorem Writer.oneByOne_takesAll : oneByOne.TakesAll := fun bytes kept some =>
  ⟨1, kept ++ bytes.take 1, rfl, Nat.one_pos, List.length_pos_iff.mpr some⟩

theorem sizes_count_written_bytes_unlockedOnce :
    Writer.oneByOne.TakesAll ∧
      (∃ kept, Transaction.unlockedOnce.write Writer.oneByOne ⟨[], []⟩ =
        (.ok 110, ⟨kept, Transaction.unlockedOnce.encode⟩)) ∧
      Transaction.unlockedOnce.encode.length =
        Transaction.unlockedOnce.encodeWithoutWitness.length + (2 + (4 + 1)) := by
  obtain ⟨-, -, -, -, transactions⟩ := sizes_count_written_bytes
  obtain ⟨whole, -, longer⟩ := transactions Transaction.unlockedOnce
  exact ⟨Writer.oneByOne_takesAll, whole.written _ _ Writer.oneByOne_takesAll [], longer⟩

end BitcoinSigning
