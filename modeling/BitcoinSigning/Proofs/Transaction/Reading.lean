import BitcoinSigning.Proofs.Encoding.CompactSizeReading
import BitcoinSigning.Transaction.Decode
/-!
The parts of transactions are read from their own encodings and from no other bytes,
as far as their limits go. An input and its witness stand in different places, so the
witnesses are put into inputs that were read without them.
-/

namespace BitcoinSigning

open Decoder

/-! Parts. -/

theorem OutPoint.decode_reads : Reads OutPoint.decode OutPoint.encode fun _ => True := by
  intro source outPoint rest
  unfold OutPoint.decode OutPoint.encode
  simp only [bind_eq_ok_iff, pure_eq_ok_iff, bytes32_reads _ _ _, uint32_reads _ _ _, true_and,
    Source.prepend_append]
  constructor
  · rintro ⟨hash, _, rfl, index, _, rfl, rfl, rfl⟩
    rfl
  · rintro rfl
    exact ⟨outPoint.hash, _, rfl, outPoint.index, _, rfl, rfl, rfl⟩

theorem Input.decode_reads :
    Reads Input.decode Input.encode fun input =>
      input.script.length ≤ maxScriptSize.toNat ∧ input.witness = [] := by
  intro source input rest
  unfold Input.decode Input.encode
  simp only [bind_eq_ok_iff, pure_eq_ok_iff, OutPoint.decode_reads _ _ _,
    SizedBytes.decode_reads _ _ _ _, uint32_reads _ _ _, true_and, Source.prepend_append]
  constructor
  · rintro ⟨outPoint, _, rfl, script, _, ⟨within, rfl⟩, sequence, _, rfl, rfl, rfl⟩
    exact ⟨⟨within, rfl⟩, rfl⟩
  · obtain ⟨outPoint, script, sequence, witness⟩ := input
    rintro ⟨⟨within, rfl⟩, rfl⟩
    exact ⟨outPoint, _, rfl, script, _, ⟨within, rfl⟩, sequence, _, rfl, rfl, rfl⟩

theorem Output.decode_reads :
    Reads Output.decode Output.encode fun output => output.script.length ≤ maxScriptSize.toNat := by
  intro source output rest
  unfold Output.decode Output.encode
  simp only [bind_eq_ok_iff, pure_eq_ok_iff, SizedBytes.decode_reads _ _ _ _, uint64_reads _ _ _,
    true_and, Source.prepend_append]
  constructor
  · rintro ⟨value, _, rfl, script, _, ⟨within, rfl⟩, rfl, rfl⟩
    exact ⟨within, rfl⟩
  · rintro ⟨within, rfl⟩
    exact ⟨output.value, _, rfl, output.script, _, ⟨within, rfl⟩, rfl, rfl⟩

/-! Witnesses. -/

namespace Witness

structure WithinLimits (witness : Witness) : Prop where
  items : witness.length ≤ maxWitnessItems.toNat
  size : totalSize List.length witness ≤ maxWitnessSize

theorem withinLimits_nil : WithinLimits [] := ⟨Nat.zero_le _, Nat.zero_le _⟩

theorem decodeItem_eq_ok_iff {size total : Nat} {item : Bytes} {source rest : Source} :
    decodeItem size source = .ok ((item, total), rest) ↔
      (total = size + item.length ∧ total ≤ maxWitnessSize) ∧
        source = rest.prepend (SizedBytes.encode item) := by
  unfold decodeItem SizedBytes.encode
  simp only [bind_eq_ok_iff, unless_eq_ok_iff, pure_eq_ok_iff, CompactSize.decode_reads _ _ _,
    take_reads _ _ _ _, true_and, Source.prepend_append, Prod.mk.injEq]
  constructor
  · rintro ⟨length, _, rfl, within, bytes, _, ⟨counted, rfl⟩, ⟨rfl, rfl⟩, rfl⟩
    have same : length.toNat.toUInt64 = length := UInt64.ofNat_toNat
    rw [counted, same]
    exact ⟨⟨rfl, Nat.not_lt.mp within⟩, rfl⟩
  · rintro ⟨⟨rfl, within⟩, rfl⟩
    have small : maxWitnessSize < UInt64.size := by decide
    have counted : item.length.toUInt64.toNat = item.length :=
      UInt64.toNat_ofNat_of_lt' (by omega)
    exact ⟨item.length.toUInt64, _, rfl, by rwa [counted, Nat.not_lt], item, _,
      ⟨counted.symm, rfl⟩, ⟨rfl, by rw [counted]⟩, rfl⟩

theorem decodeItems_reads (count size : Nat) (within : size ≤ maxWitnessSize) :
    Reads (decodeItems count size) (fun witness => witness.flatMap SizedBytes.encode)
      fun witness => witness.length = count ∧
        size + totalSize List.length witness ≤ maxWitnessSize := by
  induction count generalizing size with
  | zero =>
    intro source witness rest
    rw [decodeItems_zero, pure_eq_ok_iff]
    constructor
    · rintro ⟨rfl, rfl⟩
      exact ⟨⟨rfl, within⟩, rfl⟩
    · rintro ⟨⟨length, -⟩, rfl⟩
      obtain rfl := List.eq_nil_of_length_eq_zero length
      exact ⟨rfl, rfl⟩
  | succ count ih =>
    intro source witness rest
    rw [decodeItems_succ]
    simp only [bind_eq_ok_iff, pure_eq_ok_iff, Prod.exists, decodeItem_eq_ok_iff]
    constructor
    · rintro ⟨item, total, middle, ⟨⟨rfl, within⟩, rfl⟩, others, _, read, rfl, rfl⟩
      obtain ⟨⟨length, sizes⟩, rfl⟩ := (ih _ within _ _ _).mp read
      refine ⟨⟨congrArg (· + 1) length, ?_⟩, ?_⟩
      · change size + (item.length + totalSize List.length others) ≤ maxWitnessSize
        rwa [← Nat.add_assoc]
      · rw [List.flatMap_cons, Source.prepend_append]
    · rintro ⟨⟨length, sizes⟩, rfl⟩
      obtain ⟨item, others, rfl⟩ := List.exists_cons_of_length_eq_add_one length
      change size + (item.length + totalSize List.length others) ≤ maxWitnessSize at sizes
      rw [← Nat.add_assoc] at sizes
      have within : size + item.length ≤ maxWitnessSize := Nat.le_of_add_right_le sizes
      rw [List.flatMap_cons, Source.prepend_append]
      exact ⟨item, _, _, ⟨⟨rfl, within⟩, rfl⟩, others, rest,
        (ih _ within _ _ _).mpr ⟨⟨Nat.succ.inj length, sizes⟩, rfl⟩, rfl, rfl⟩

theorem decode_reads : Reads decode encode WithinLimits := by
  intro source witness rest
  unfold decode encode
  simp only [bind_eq_ok_iff, unless_eq_ok_iff, CompactSize.decode_reads _ _ _,
    decodeItems_reads _ 0 (Nat.zero_le _) _ _ _, true_and, Source.prepend_append, Nat.zero_add]
  constructor
  · rintro ⟨count, _, rfl, few, ⟨length, size⟩, rfl⟩
    obtain ⟨items, rfl⟩ := CompactSize.announces_iff.mp ⟨few, length⟩
    exact ⟨⟨items, size⟩, rfl⟩
  · rintro ⟨⟨items, size⟩, rfl⟩
    obtain ⟨few, length⟩ := CompactSize.announces_iff.mpr ⟨items, rfl⟩
    exact ⟨_, _, rfl, few, ⟨length, size⟩, rfl⟩

end Witness

/-! Inputs and their witnesses stand in different places. -/

def Input.withoutWitness (input : Input) : Input := { input with witness := [] }

namespace Transaction

theorem map_withoutWitness_eq_self {inputs : List Input}
    (bare : ∀ input ∈ inputs, input.witness = []) : inputs.map Input.withoutWitness = inputs := by
  refine (List.map_congr_left fun input member => ?_).trans inputs.map_id
  obtain ⟨outPoint, script, sequence, witness⟩ := input
  exact congrArg (Input.mk outPoint script sequence) (bare _ member).symm

def withWitnessList (inputs : List Input) (witnesses : List Witness) : List Input :=
  List.zipWith (fun input witness => { input with witness }) inputs witnesses

theorem withWitnessList_map (inputs : List Input) :
    withWitnessList (inputs.map Input.withoutWitness) (inputs.map Input.witness) = inputs := by
  rw [withWitnessList, List.zipWith_map, List.zipWith_self]
  exact inputs.map_id

theorem map_withWitnessList {inputs : List Input} {witnesses : List Witness}
    (lengths : witnesses.length = inputs.length) (bare : ∀ input ∈ inputs, input.witness = []) :
    (withWitnessList inputs witnesses).map Input.withoutWitness = inputs ∧
      (withWitnessList inputs witnesses).map Input.witness = witnesses := by
  induction inputs generalizing witnesses with
  | nil =>
    obtain rfl := List.eq_nil_of_length_eq_zero lengths
    exact ⟨rfl, rfl⟩
  | cons input inputs ih =>
    obtain ⟨witness, witnesses, rfl⟩ := List.exists_cons_of_length_eq_add_one lengths
    obtain ⟨first, others⟩ := List.forall_mem_cons.mp bare
    obtain ⟨bodies, items⟩ := ih (Nat.succ.inj lengths) others
    obtain ⟨outPoint, script, sequence, empty⟩ := input
    obtain rfl : empty = [] := first
    exact ⟨congrArg (_ :: ·) bodies, congrArg (_ :: ·) items⟩

theorem encodeWitnesses_eq (inputs : List Input) :
    encodeWitnesses inputs = (inputs.map Input.witness).flatMap Witness.encode := by
  rw [encodeWitnesses, List.flatMap_map]

theorem decodeWitnesses_reads {inputs : List Input}
    (bare : ∀ input ∈ inputs, input.witness = []) :
    Reads (decodeWitnesses inputs) encodeWitnesses fun given =>
      given.map Input.withoutWitness = inputs ∧
        ∀ input ∈ given, input.witness.WithinLimits := by
  intro source given rest
  unfold decodeWitnesses
  simp only [bind_eq_ok_iff, pure_eq_ok_iff, times_reads Witness.decode_reads _ _ _ _]
  constructor
  · rintro ⟨witnesses, _, ⟨⟨lengths, each⟩, rfl⟩, together, rfl⟩
    obtain ⟨bodies, items⟩ := map_withWitnessList lengths bare
    rw [withWitnessList, together] at bodies items
    rw [encodeWitnesses_eq, items]
    exact ⟨⟨bodies, List.forall_mem_map.mp (items ▸ each)⟩, rfl⟩
  · rintro ⟨⟨rfl, each⟩, rfl⟩
    have lengths : (given.map Input.witness).length = (given.map Input.withoutWitness).length := by
      rw [List.length_map, List.length_map]
    rw [encodeWitnesses_eq]
    exact ⟨given.map Input.witness, rest, ⟨⟨lengths, List.forall_mem_map.mpr each⟩, rfl⟩,
      withWitnessList_map given, rfl⟩

def encodeInputCount (segwit : Bool) (count : UInt64) : Bytes :=
  (if segwit then [segwitMarker, segwitFlag] else []) ++ CompactSize.encode count

theorem decodeInputCount_eq_ok_iff {segwit : Bool} {count : UInt64} {source rest : Source} :
    decodeInputCount source = .ok ((segwit, count), rest) ↔
      (segwit = false → count ≠ 0) ∧ source = rest.prepend (encodeInputCount segwit count) := by
  unfold decodeInputCount
  simp only [bind_eq_ok_iff, byte_reads _ _ _, true_and]
  constructor
  · rintro ⟨first, middle, rfl, read⟩
    by_cases marked : first = segwitMarker
    · simp only [if_pos marked, bind_eq_ok_iff, unless_eq_ok_iff, pure_eq_ok_iff, byte_reads _ _ _,
        CompactSize.decode_reads _ _ _, true_and, Prod.mk.injEq, ne_eq, Decidable.not_not] at read
      obtain ⟨flag, _, rfl, rfl, _, _, rfl, ⟨rfl, rfl⟩, rfl⟩ := read
      rw [marked]
      exact ⟨nofun, rfl⟩
    · simp only [if_neg marked, bind_eq_ok_iff, pure_eq_ok_iff, CompactSize.decodeAfter_eq_ok_iff,
        Prod.mk.injEq] at read
      obtain ⟨_, _, written, ⟨rfl, rfl⟩, rfl⟩ := read
      refine ⟨fun _ zero => ?_, written⟩
      rw [zero, CompactSize.encode_zero, Source.prepend_cons_iff] at written
      exact marked written.1
  · rintro ⟨positive, rfl⟩
    cases segwit with
    | true =>
      refine ⟨segwitMarker, (rest.prepend (CompactSize.encode count)).prepend [segwitFlag], rfl, ?_⟩
      simp only [if_true, bind_eq_ok_iff, unless_eq_ok_iff, pure_eq_ok_iff, byte_reads _ _ _,
        CompactSize.decode_reads _ _ _, true_and, Prod.mk.injEq, ne_eq, Decidable.not_not]
      exact ⟨segwitFlag, _, rfl, rfl, count, rest, rfl, rfl, rfl⟩
    | false =>
      obtain ⟨first, others, form, onlyZero⟩ := CompactSize.exists_encode_eq_cons count
      have unmarked : first ≠ segwitMarker := mt onlyZero (positive rfl)
      have whole : encodeInputCount false count = first :: others := form
      rw [whole]
      refine ⟨first, rest.prepend others, rfl, ?_⟩
      simp only [if_neg unmarked, bind_eq_ok_iff, pure_eq_ok_iff,
        CompactSize.decodeAfter_eq_ok_iff, Prod.mk.injEq]
      exact ⟨count, rest, by rw [form]; rfl, ⟨trivial, rfl⟩, rfl⟩

theorem decodeInputs_reads (count : UInt64) :
    Reads (decodeInputs count) (fun inputs => inputs.flatMap Input.encode) fun inputs =>
      count ≤ maxInputs ∧ inputs.length = count.toNat ∧ ∀ input ∈ inputs,
        input.script.length ≤ maxScriptSize.toNat ∧ input.witness = [] := by
  intro source inputs rest
  unfold decodeInputs
  simp only [unless_eq_ok_iff, times_reads Input.decode_reads _ _ _ _, UInt64.not_lt, and_assoc]

theorem decodeOutputs_reads :
    Reads decodeOutputs encodeOutputs fun outputs =>
      outputs.length ≤ maxOutputs.toNat ∧
        ∀ output ∈ outputs, output.script.length ≤ maxScriptSize.toNat := by
  intro source outputs rest
  unfold decodeOutputs encodeOutputs
  simp only [bind_eq_ok_iff, unless_eq_ok_iff, times_reads Output.decode_reads _ _ _ _,
    CompactSize.decode_reads _ _ _, true_and, Source.prepend_append]
  constructor
  · rintro ⟨count, _, rfl, few, ⟨length, each⟩, rfl⟩
    obtain ⟨within, rfl⟩ := CompactSize.announces_iff.mp ⟨few, length⟩
    exact ⟨⟨within, each⟩, rfl⟩
  · rintro ⟨⟨within, each⟩, rfl⟩
    obtain ⟨few, length⟩ := CompactSize.announces_iff.mpr ⟨within, rfl⟩
    exact ⟨_, _, rfl, few, ⟨length, each⟩, rfl⟩

end Transaction

end BitcoinSigning
