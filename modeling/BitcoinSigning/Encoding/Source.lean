import BitcoinSigning.Bytes
/-!
Sources of bytes to decode from, and the readers of fixed-width values. A source
hands out the bytes that it has; what a reader sees when it asks for more is the
end of the data or a failure of the source itself.
-/

namespace BitcoinSigning

attribute [local instance (high)] instPowNat

inductive DecodeError
  | unexpectedEnd
  | tooManyInputs (count : UInt64)
  | tooManyOutputs (count : UInt64)
  | scriptTooLarge (length : UInt64)
  | witnessTooLarge
  | invalidSegwitFlag (flag : UInt8)
  | trailingBytes (count : Nat)
  | nonCanonicalCompactSize
  | sourceFailed (message : String)
  deriving DecidableEq, Repr

namespace DecodeError

def message : DecodeError → String
  | unexpectedEnd => "transaction ended unexpectedly"
  | tooManyInputs count => s!"too many inputs: {count.toNat}"
  | tooManyOutputs count => s!"too many outputs: {count.toNat}"
  | scriptTooLarge length => s!"script of {length.toNat} bytes exceeds the maximum size"
  | witnessTooLarge => "witness exceeds the maximum size"
  | invalidSegwitFlag flag => "invalid segwit flag 0x" ++ Bytes.toHex [flag]
  | trailingBytes count => s!"{count} trailing bytes after transaction"
  | nonCanonicalCompactSize => "compact size is not minimally encoded"
  | sourceFailed message => message

end DecodeError

/-- What comes after the last byte of a source. -/
inductive Ending
  | endOfData
  | failure (message : String)
  deriving DecidableEq

def Ending.error : Ending → DecodeError
  | endOfData => .unexpectedEnd
  | failure message => .sourceFailed message

structure Source where
  bytes : Bytes
  ending : Ending
  deriving DecidableEq

def Source.ofBytes (bytes : Bytes) : Source := ⟨bytes, .endOfData⟩

abbrev Decoder (α : Type) := StateT Source (Except DecodeError) α

namespace Decoder

def exactly (length : Nat) : Decoder { bytes : Bytes // bytes.length = length } := fun source =>
  let taken := source.bytes.take length
  if enough : taken.length = length then
    .ok (⟨taken, enough⟩, { source with bytes := source.bytes.drop length })
  else .error source.ending.error

def take (length : Nat) : Decoder Bytes := do
  return (← exactly length).val

def unsigned (width : Nat) : Decoder Nat := do
  return Bytes.ofLittleEndian (← take width)

def byte : Decoder UInt8 := do return (← unsigned 1).toUInt8

def uint32 : Decoder UInt32 := do return (← unsigned 4).toUInt32

def uint64 : Decoder UInt64 := do return (← unsigned 8).toUInt64

def bytes32 : Decoder Bytes32 := do
  let ⟨bytes, length_eq⟩ ← exactly 32
  return ⟨bytes, length_eq⟩

theorem bind_of_ok {α β : Type} {first : Decoder α} {next : α → Decoder β} {source rest : Source}
    {a : α} (read : first source = .ok (a, rest)) : (first >>= next) source = next a rest := by
  simp only [bind, StateT.bind, Except.bind, read]

theorem bind_of_error {α β : Type} {first : Decoder α} {next : α → Decoder β} {source : Source}
    {e : DecodeError} (failed : first source = .error e) : (first >>= next) source = .error e := by
  simp only [bind, StateT.bind, Except.bind, failed]

theorem take_append (bytes rest : Bytes) (ending : Ending) :
    take bytes.length ⟨bytes ++ rest, ending⟩ = .ok (bytes, ⟨rest, ending⟩) := by
  have taken : (bytes ++ rest).take bytes.length = bytes := List.take_left
  have left : (bytes ++ rest).drop bytes.length = rest := List.drop_left
  have enough : ((bytes ++ rest).take bytes.length).length = bytes.length :=
    congrArg List.length taken
  rw [take, bind_of_ok (dif_pos enough)]
  change Except.ok ((bytes ++ rest).take bytes.length,
    Source.mk ((bytes ++ rest).drop bytes.length) ending) = _
  rw [taken, left]

theorem take_eq_error (length : Nat) (source : Source) (short : source.bytes.length < length) :
    take length source = .error source.ending.error := by
  have few : (source.bytes.take length).length ≠ length := by
    rw [List.length_take]
    omega
  exact bind_of_error (dif_neg few)

theorem unsigned_append (width number : Nat) (small : number < 256 ^ width) (rest : Bytes)
    (ending : Ending) :
    unsigned width ⟨Bytes.littleEndian width number ++ rest, ending⟩ =
      .ok (number, ⟨rest, ending⟩) := by
  have read := take_append (Bytes.littleEndian width number) rest ending
  rw [Bytes.length_littleEndian] at read
  rw [unsigned, bind_of_ok read, Bytes.ofLittleEndian_littleEndian, Nat.mod_eq_of_lt small]
  rfl

def timesOnto {α : Type} (item : Decoder α) :
    Nat → List α → Source → Except DecodeError (List α × Source)
  | 0, reversed, source => .ok (reversed.reverse, source)
  | count + 1, reversed, source =>
    match item source with
    | .ok (a, rest) => timesOnto item count (a :: reversed) rest
    | .error e => .error e

def times {α : Type} (count : Nat) (item : Decoder α) : Decoder (List α) :=
  timesOnto item count []

private theorem timesOnto_eq {α : Type} (item : Decoder α) (count : Nat) (reversed : List α)
    (source : Source) :
    timesOnto item count reversed source =
      (timesOnto item count [] source).map fun (items, rest) => (reversed.reverse ++ items, rest) := by
  induction count generalizing reversed source with
  | zero => simp only [timesOnto, Except.map, List.reverse_nil, List.append_nil]
  | succ count ih =>
    simp only [timesOnto]
    cases item source with
    | error e => rfl
    | ok found =>
      obtain ⟨a, rest⟩ := found
      simp only
      rw [ih (a :: reversed), ih [a]]
      cases timesOnto item count [] rest <;>
        simp only [Except.map, List.reverse_cons, List.reverse_nil, List.nil_append,
          List.append_assoc]

theorem times_zero {α : Type} (item : Decoder α) : times 0 item = pure [] := rfl

theorem times_succ {α : Type} (count : Nat) (item : Decoder α) :
    times (count + 1) item = do
      let a ← item
      let others ← times count item
      return a :: others := by
  funext source
  cases read : item source with
  | error e =>
    rw [bind_of_error read, times, timesOnto, read]
  | ok found =>
    obtain ⟨a, rest⟩ := found
    rw [bind_of_ok read, times, timesOnto, read]
    change timesOnto item count [a] rest = _
    rw [timesOnto_eq item count [a]]
    cases others : times count item rest with
    | error e =>
      rw [bind_of_error others, ← times, others]
      rfl
    | ok found =>
      rw [bind_of_ok others, ← times, others]
      rfl

end Decoder

end BitcoinSigning
