import BitcoinSigning.Proofs.Encoding.Streaming
import BitcoinSigning.Transaction.Decode
/-!
Transactions and their parts over sources that have more or fewer bytes. What a decoder
refuses, it refuses at a limit, and no limit depends on bytes behind those that reach it.
-/

namespace BitcoinSigning

open Decoder

/-! Counts and byte strings. -/

namespace CompactSize

theorem decodeWide_streams (width : Nat) (least : UInt64) : Streams (decodeWide width least) :=
  (unsigned_streams width).bind fun _ => .unless rfl (streams_pure _)

theorem decodeAfter_streams (first : UInt8) : Streams (decodeAfter first) :=
  (decodeWide_streams 2 0xfd).ite ((decodeWide_streams 4 0x10000).ite
    ((decodeWide_streams 8 0x100000000).ite (streams_pure _)))

theorem decode_streams : Streams decode := byte_streams.bind decodeAfter_streams

end CompactSize

theorem SizedBytes.decode_streams (limit : UInt64) : Streams (SizedBytes.decode limit) :=
  CompactSize.decode_streams.bind fun _ => .unless rfl (take_streams _)

/-! Parts. -/

theorem OutPoint.decode_streams : Streams OutPoint.decode :=
  bytes32_streams.bind fun _ => uint32_streams.bind fun _ => streams_pure _

theorem Input.decode_streams : Streams Input.decode :=
  OutPoint.decode_streams.bind fun _ => (SizedBytes.decode_streams _).bind fun _ =>
    uint32_streams.bind fun _ => streams_pure _

theorem Output.decode_streams : Streams Output.decode :=
  uint64_streams.bind fun _ => (SizedBytes.decode_streams _).bind fun _ => streams_pure _

namespace Witness

theorem decodeItem_streams (size : Nat) : Streams (decodeItem size) :=
  CompactSize.decode_streams.bind fun _ => .unless rfl
    ((take_streams _).bind fun _ => streams_pure _)

theorem decodeItems_streams (count size : Nat) : Streams (decodeItems count size) := by
  induction count generalizing size with
  | zero => exact streams_pure []
  | succ count ih =>
    rw [decodeItems_succ]
    exact (decodeItem_streams size).bind fun (_, size) => (ih size).bind fun _ => streams_pure _

theorem decode_streams : Streams decode :=
  CompactSize.decode_streams.bind fun _ => .unless rfl
    (decodeItems_streams _ 0)

end Witness

namespace Transaction

theorem decodeInputCount_streams : Streams decodeInputCount :=
  byte_streams.bind fun first => .ite
    (byte_streams.bind fun _ => .unless rfl
      (CompactSize.decode_streams.bind fun _ => streams_pure _))
    ((CompactSize.decodeAfter_streams first).bind fun _ => streams_pure _)

theorem decodeInputs_streams (count : UInt64) : Streams (decodeInputs count) := by
  unfold decodeInputs
  exact .unless rfl (times_streams Input.decode_streams _)

theorem decodeOutputs_streams : Streams decodeOutputs :=
  CompactSize.decode_streams.bind fun _ => .unless rfl
    (times_streams Output.decode_streams _)

theorem decodeWitnesses_streams (inputs : List Input) : Streams (decodeWitnesses inputs) :=
  (times_streams Witness.decode_streams _).bind fun _ => streams_pure _

theorem decode_streams : Streams decode :=
  uint32_streams.bind fun _ => decodeInputCount_streams.bind fun (_, count) =>
    (decodeInputs_streams count).bind fun inputs => decodeOutputs_streams.bind fun _ =>
      .ite
        ((decodeWitnesses_streams inputs).bind fun _ =>
          uint32_streams.bind fun _ => streams_pure _)
        ((streams_pure inputs).bind fun _ => uint32_streams.bind fun _ => streams_pure _)

/-- All decoders keep their outcome over more bytes, and over a source that fails behind
the bytes. A string of bytes is read either at once or up to its length, to the same end. -/
theorem streamingLaw :
    StreamingLaw CompactSize.decode ∧
    (∀ limit, StreamingLaw (SizedBytes.decode limit)) ∧
    (∀ length, StreamingLaw (take length)) ∧
    StreamingLaw OutPoint.decode ∧
    StreamingLaw Input.decode ∧
    StreamingLaw Output.decode ∧
    StreamingLaw Witness.decode ∧
    StreamingLaw decode ∧
    ∀ length, take length = do
      let bytes ← upTo length
      if bytes.length ≠ length then throw .unexpectedEnd
      return bytes :=
  ⟨CompactSize.decode_streams.law, fun limit => (SizedBytes.decode_streams limit).law,
    fun length => (take_streams length).law, OutPoint.decode_streams.law,
    Input.decode_streams.law, Output.decode_streams.law, Witness.decode_streams.law,
    decode_streams.law, take_eq_upTo⟩

end Transaction

end BitcoinSigning
