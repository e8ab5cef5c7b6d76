import BitcoinSigning.Proofs.Encoding.PrefixFree
import BitcoinSigning.Proofs.Sighash.Unlocking
import BitcoinSigning.Proofs.Transaction.Forms
/-!
Different transactions are written differently. This goes beyond what can be decoded:
all that is asked of a transaction is that its counts and lengths have encodings of
their own. The two forms do not meet either, as only the marker begins with a zero.
-/

namespace BitcoinSigning

open Decoder

theorem OutPoint.encode_prefixFree : PrefixFree OutPoint.encode fun _ => True :=
  OutPoint.decode_reads.prefixFree

theorem Input.encode_prefixFree :
    PrefixFree Input.encode fun input =>
      input.script.length < UInt64.size ∧ input.witness = [] := by
  intro a b ⟨fitsA, bareA⟩ ⟨fitsB, bareB⟩ x y same
  obtain ⟨outPointA, scriptA, sequenceA, witnessA⟩ := a
  obtain ⟨outPointB, scriptB, sequenceB, witnessB⟩ := b
  obtain rfl : witnessA = [] := bareA
  obtain rfl : witnessB = [] := bareB
  simp only [Input.encode, List.append_assoc] at same
  obtain ⟨rfl, fromScript⟩ := OutPoint.encode_prefixFree trivial trivial same
  obtain ⟨rfl, fromSequence⟩ := SizedBytes.encode_prefixFree fitsA fitsB fromScript
  obtain ⟨rfl, rest⟩ := uint32_reads.prefixFree trivial trivial fromSequence
  exact ⟨rfl, rest⟩

theorem Output.encode_prefixFree :
    PrefixFree Output.encode fun output => output.script.length < UInt64.size := by
  intro a b fitsA fitsB x y same
  obtain ⟨valueA, scriptA⟩ := a
  obtain ⟨valueB, scriptB⟩ := b
  simp only [Output.encode, List.append_assoc] at same
  obtain ⟨rfl, fromScript⟩ := uint64_reads.prefixFree trivial trivial same
  obtain ⟨rfl, rest⟩ := SizedBytes.encode_prefixFree fitsA fitsB fromScript
  exact ⟨rfl, rest⟩

theorem Witness.encode_prefixFree :
    PrefixFree Witness.encode fun witness =>
      witness.length < UInt64.size ∧ ∀ item ∈ witness, item.length < UInt64.size :=
  SizedBytes.encode_prefixFree.counted

namespace Transaction

/-- All counts and lengths can be encoded, those of witnesses aside. -/
structure BodyFits (transaction : Transaction) : Prop where
  inputs : transaction.inputs.length < UInt64.size
  outputs : transaction.outputs.length < UInt64.size
  inputScripts : ∀ input ∈ transaction.inputs, input.script.length < UInt64.size
  outputScripts : ∀ output ∈ transaction.outputs, output.script.length < UInt64.size

structure Fits (transaction : Transaction) : Prop extends BodyFits transaction where
  witnesses : ∀ input ∈ transaction.inputs, input.witness.length < UInt64.size ∧
    ∀ item ∈ input.witness, item.length < UInt64.size

def withoutWitnesses (transaction : Transaction) : Transaction :=
  { transaction with inputs := transaction.inputs.map Input.withoutWitness }

theorem withoutWitnesses_eq_self {transaction : Transaction}
    (bare : transaction.hasWitness = false) : transaction.withoutWitnesses = transaction := by
  rw [withoutWitnesses, map_withoutWitness_eq_self (hasWitness_eq_false_iff.mp bare)]

theorem eq_of_withoutWitnesses_eq {a b : Transaction}
    (bodies : a.withoutWitnesses = b.withoutWitnesses)
    (witnesses : a.inputs.map Input.witness = b.inputs.map Input.witness) : a = b := by
  obtain ⟨version, inputs, outputs, lockTime⟩ := a
  simp only [withoutWitnesses, mk.injEq] at bodies witnesses
  obtain ⟨rfl, inputsBodies, rfl, rfl⟩ := bodies
  rw [← withWitnessList_map inputs, inputsBodies, witnesses, withWitnessList_map]

theorem encodeInputs_append_eq {a b : List Input} {x y : Bytes}
    (countA : a.length < UInt64.size) (countB : b.length < UInt64.size)
    (scriptsA : ∀ input ∈ a, input.script.length < UInt64.size)
    (scriptsB : ∀ input ∈ b, input.script.length < UInt64.size)
    (same : encodeInputs a ++ x = encodeInputs b ++ y) :
    a.map Input.withoutWitness = b.map Input.withoutWitness ∧ x = y := by
  have fits {inputs : List Input} (count : inputs.length < UInt64.size)
      (scripts : ∀ input ∈ inputs, input.script.length < UInt64.size) :
      (inputs.map Input.withoutWitness).length < UInt64.size ∧
        ∀ input ∈ inputs.map Input.withoutWitness,
          input.script.length < UInt64.size ∧ input.witness = [] := by
    rw [List.length_map]
    exact ⟨count, List.forall_mem_map.mpr fun input member => ⟨scripts input member, rfl⟩⟩
  rw [← encodeInputs_dropWitness a, ← encodeInputs_dropWitness b] at same
  exact Input.encode_prefixFree.counted (fits countA scriptsA) (fits countB scriptsB) same

theorem encodeOutputs_prefixFree :
    PrefixFree encodeOutputs fun outputs => outputs.length < UInt64.size ∧
      ∀ output ∈ outputs, output.script.length < UInt64.size :=
  Output.encode_prefixFree.counted

theorem encodeWitnesses_prefixFree (count : Nat) :
    PrefixFree (fun witnesses : List Witness => witnesses.flatMap Witness.encode)
      fun witnesses => witnesses.length = count ∧ ∀ witness ∈ witnesses,
        witness.length < UInt64.size ∧ ∀ item ∈ witness, item.length < UInt64.size :=
  Witness.encode_prefixFree.flatMap count

theorem version_append_eq {a b : Int32} {x y : Bytes}
    (same : encodeVersion a ++ x = encodeVersion b ++ y) : a = b ∧ x = y := by
  obtain ⟨words, rest⟩ := uint32_reads.prefixFree trivial trivial same
  exact ⟨congrArg UInt32.toInt32 words, rest⟩

variable {a b : Transaction}

/-- Without witnesses, all but the witnesses can be told from the bytes. -/
theorem encodeWithoutWitness_append_eq {x y : Bytes} (fitsA : a.BodyFits) (fitsB : b.BodyFits)
    (same : a.encodeWithoutWitness ++ x = b.encodeWithoutWitness ++ y) :
    a.withoutWitnesses = b.withoutWitnesses ∧ x = y := by
  simp only [encodeWithoutWitness, List.append_assoc] at same
  obtain ⟨version, same⟩ := version_append_eq same
  obtain ⟨inputs, same⟩ := encodeInputs_append_eq fitsA.inputs fitsB.inputs fitsA.inputScripts
    fitsB.inputScripts same
  obtain ⟨outputs, same⟩ := encodeOutputs_prefixFree ⟨fitsA.outputs, fitsA.outputScripts⟩
    ⟨fitsB.outputs, fitsB.outputScripts⟩ same
  obtain ⟨lockTime, same⟩ := uint32_reads.prefixFree trivial trivial same
  refine ⟨?_, same⟩
  rw [withoutWitnesses, withoutWitnesses, version, inputs, outputs, lockTime]

theorem encodeWithoutWitness_eq_iff (fitsA : a.BodyFits) (fitsB : b.BodyFits) :
    a.encodeWithoutWitness = b.encodeWithoutWitness ↔
      a.withoutWitnesses = b.withoutWitnesses := by
  have encode_withoutWitnesses (transaction : Transaction) :
      transaction.withoutWitnesses.encodeWithoutWitness = transaction.encodeWithoutWitness := by
    rw [encodeWithoutWitness, encodeWithoutWitness, ← encodeInputs_dropWitness transaction.inputs]
    rfl
  constructor
  · intro same
    exact (encodeWithoutWitness_append_eq fitsA fitsB (congrArg (· ++ []) same)).1
  · intro same
    rw [← encode_withoutWitnesses a, same, encode_withoutWitnesses]

theorem eq_of_encodeWithWitness_eq (fitsA : a.Fits) (fitsB : b.Fits)
    (same : a.encodeWithWitness = b.encodeWithWitness) : a = b := by
  simp only [encodeWithWitness, List.append_assoc] at same
  obtain ⟨version, same⟩ := version_append_eq same
  obtain ⟨inputs, same⟩ := encodeInputs_append_eq fitsA.inputs fitsB.inputs fitsA.inputScripts
    fitsB.inputScripts (List.append_cancel_left same)
  obtain ⟨outputs, same⟩ := encodeOutputs_prefixFree ⟨fitsA.outputs, fitsA.outputScripts⟩
    ⟨fitsB.outputs, fitsB.outputScripts⟩ same
  have counts : (a.inputs.map Input.witness).length = (b.inputs.map Input.witness).length := by
    have counts := congrArg List.length inputs
    rwa [List.length_map, List.length_map] at counts ⊢
  rw [encodeWitnesses_eq, encodeWitnesses_eq] at same
  obtain ⟨witnesses, same⟩ := encodeWitnesses_prefixFree _
    ⟨counts, List.forall_mem_map.mpr fitsA.witnesses⟩
    ⟨rfl, List.forall_mem_map.mpr fitsB.witnesses⟩ same
  obtain ⟨lockTime, -⟩ := uint32_reads.prefixFree trivial trivial (congrArg (· ++ []) same)
  refine eq_of_withoutWitnesses_eq ?_ witnesses
  rw [withoutWitnesses, withoutWitnesses, version, inputs, outputs, lockTime]

theorem encodeWithWitness_ne_encodeWithoutWitness (fits : b.inputs.length < UInt64.size)
    (nonempty : b.inputs ≠ []) : a.encodeWithWitness ≠ b.encodeWithoutWitness := by
  intro same
  simp only [encodeWithWitness, encodeWithoutWitness, encodeInputs, List.append_assoc] at same
  obtain ⟨-, same⟩ := version_append_eq same
  obtain ⟨first, others, form, onlyZero⟩ :=
    CompactSize.exists_encode_eq_cons b.inputs.length.toUInt64
  rw [form] at same
  have zero : b.inputs.length.toUInt64 = 0 := onlyZero (List.cons.inj same).1.symm
  have counted : b.inputs.length.toUInt64.toNat = b.inputs.length := UInt64.toNat_ofNat_of_lt' fits
  rw [zero] at counted
  exact nonempty (List.eq_nil_of_length_eq_zero counted.symm)

end Transaction

end BitcoinSigning
