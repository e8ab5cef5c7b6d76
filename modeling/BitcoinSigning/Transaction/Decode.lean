import BitcoinSigning.Transaction.Encode
/-!
Transactions from bytes. Every count and length is compared with a limit before
anything that it announces is read.
-/

namespace BitcoinSigning

def maxScriptSize : UInt64 := 1000000

/-- As many inputs as fit in a block with the fewest bytes each. -/
def maxInputs : UInt64 := 24390

def maxOutputs : UInt64 := 111111

def maxWitnessItems : UInt64 := 10000

def maxWitnessSize : Nat := 0x20000000

def OutPoint.decode : Decoder OutPoint := do
  let hash ← Decoder.bytes32
  let index ← Decoder.uint32
  return ⟨hash, index⟩

def Input.decode : Decoder Input := do
  let outPoint ← OutPoint.decode
  let script ← SizedBytes.decode maxScriptSize
  let sequence ← Decoder.uint32
  return ⟨outPoint, script, sequence, []⟩

def Output.decode : Decoder Output := do
  let value ← Decoder.uint64
  let script ← SizedBytes.decode maxScriptSize
  return ⟨value, script⟩

namespace Witness

def decodeItem (size : Nat) : Decoder (Bytes × Nat) := do
  let length ← CompactSize.decode
  let size := size + length.toNat
  if maxWitnessSize < size then throw .witnessTooLarge
  return (← Decoder.take length.toNat, size)

def decodeItemsOnto : Nat → Nat → List Bytes → Source → Except DecodeError (Witness × Source)
  | 0, _, reversed, source => .ok (reversed.reverse, source)
  | count + 1, size, reversed, source =>
    match decodeItem size source with
    | .ok ((item, size), rest) => decodeItemsOnto count size (item :: reversed) rest
    | .error e => .error e

def decodeItems (count size : Nat) : Decoder Witness :=
  decodeItemsOnto count size []

private theorem decodeItemsOnto_eq (count size : Nat) (reversed : List Bytes) (source : Source) :
    decodeItemsOnto count size reversed source =
      (decodeItemsOnto count size [] source).map fun (items, rest) =>
        (reversed.reverse ++ items, rest) := by
  induction count generalizing size reversed source with
  | zero => simp only [decodeItemsOnto, Except.map, List.reverse_nil, List.append_nil]
  | succ count ih =>
    simp only [decodeItemsOnto]
    cases decodeItem size source with
    | error e => rfl
    | ok found =>
      obtain ⟨⟨item, size⟩, rest⟩ := found
      simp only
      rw [ih size (item :: reversed), ih size [item]]
      cases decodeItemsOnto count size [] rest <;>
        simp only [Except.map, List.reverse_cons, List.reverse_nil, List.nil_append,
          List.append_assoc]

theorem decodeItems_zero (size : Nat) : decodeItems 0 size = pure [] := rfl

theorem decodeItems_succ (count size : Nat) :
    decodeItems (count + 1) size = do
      let (item, size) ← decodeItem size
      let others ← decodeItems count size
      return item :: others := by
  funext source
  cases read : decodeItem size source with
  | error e =>
    rw [Decoder.bind_of_error read, decodeItems, decodeItemsOnto, read]
  | ok found =>
    obtain ⟨⟨item, size⟩, rest⟩ := found
    rw [Decoder.bind_of_ok read, decodeItems, decodeItemsOnto, read]
    change decodeItemsOnto count size [item] rest = (decodeItems count size >>= _) rest
    rw [decodeItemsOnto_eq count size [item]]
    cases others : decodeItems count size rest with
    | error e =>
      rw [Decoder.bind_of_error others, ← decodeItems, others]
      rfl
    | ok found =>
      rw [Decoder.bind_of_ok others, ← decodeItems, others]
      rfl

def decode : Decoder Witness := do
  let count ← CompactSize.decode
  if maxWitnessItems < count then throw .witnessTooLarge
  decodeItems count.toNat 0

end Witness

namespace Transaction

def decodeInputCount : Decoder (Bool × UInt64) := do
  let first ← Decoder.byte
  if first = segwitMarker then
    let flag ← Decoder.byte
    if flag ≠ segwitFlag then throw (.invalidSegwitFlag flag)
    return (true, ← CompactSize.decode)
  else return (false, ← CompactSize.decodeAfter first)

def decodeInputs (count : UInt64) : Decoder (List Input) := do
  if maxInputs < count then throw (.tooManyInputs count)
  Decoder.times count.toNat Input.decode

def decodeOutputs : Decoder (List Output) := do
  let count ← CompactSize.decode
  if maxOutputs < count then throw (.tooManyOutputs count)
  Decoder.times count.toNat Output.decode

def decodeWitnesses (inputs : List Input) : Decoder (List Input) := do
  let witnesses ← Decoder.times inputs.length Witness.decode
  return List.zipWith (fun input witness => { input with witness }) inputs witnesses

def decode : Decoder Transaction := do
  let version := (← Decoder.uint32).toInt32
  let (segwit, count) ← decodeInputCount
  let inputs ← decodeInputs count
  let outputs ← decodeOutputs
  let inputs ← if segwit then decodeWitnesses inputs else pure inputs
  let lockTime ← Decoder.uint32
  return ⟨version, inputs, outputs, lockTime⟩

def ofBytes (bytes : Bytes) : Except DecodeError Transaction := do
  let (transaction, source) ← decode (Source.ofBytes bytes)
  match source.bytes.length with
  | 0 => return transaction
  | left => throw (.trailingBytes left)

end Transaction

end BitcoinSigning
