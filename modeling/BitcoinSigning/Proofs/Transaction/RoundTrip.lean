import BitcoinSigning.Proofs.Transaction.Unambiguous
/-!
Which transactions are read back from their own bytes: those within the limits that
have an input. One that has an input is never read as a different transaction. This
holds even where counts wrap around, since nothing within the limits is as long as the
bytes of such a transaction.
-/

namespace BitcoinSigning

/-! Sizes of lists. -/

section Sizes

variable {α : Type} {size : α → Nat} {parts : List α}

theorem totalSize_le {bound : Nat} (each : ∀ part ∈ parts, size part ≤ bound) :
    totalSize size parts ≤ parts.length * bound := by
  induction parts with
  | nil => exact Nat.zero_le _
  | cons part parts ih =>
    obtain ⟨first, others⟩ := List.forall_mem_cons.mp each
    have rest := ih others
    change size part + totalSize size parts ≤ (parts.length + 1) * bound
    rw [Nat.succ_mul]
    omega

theorem le_totalSize (size : α → Nat) {part : α} (member : part ∈ parts) :
    size part ≤ totalSize size parts := by
  induction parts with
  | nil => cases member
  | cons first parts ih =>
    change size part ≤ size first + totalSize size parts
    rcases List.mem_cons.mp member with rfl | member
    · omega
    · exact Nat.le_add_left_of_le (ih member)

theorem length_le_totalSize (positive : ∀ part, 1 ≤ size part) :
    parts.length ≤ totalSize size parts := by
  induction parts with
  | nil => exact Nat.zero_le _
  | cons part parts ih =>
    have first := positive part
    change parts.length + 1 ≤ size part + totalSize size parts
    omega

end Sizes

theorem CompactSize.encodedSize_bounds (n : UInt64) : 1 ≤ encodedSize n ∧ encodedSize n ≤ 9 := by
  unfold encodedSize
  split
  · decide
  · split
    · decide
    · split <;> decide

theorem SizedBytes.encodedSize_bounds (bytes : Bytes) :
    bytes.length + 1 ≤ encodedSize bytes ∧ encodedSize bytes ≤ bytes.length + 9 := by
  have header := CompactSize.encodedSize_bounds bytes.length.toUInt64
  unfold encodedSize
  omega

/-! Nothing within the limits is long. -/

theorem Witness.encodedSize_le {witness : Witness} (limits : witness.WithinLimits) :
    encodedSize witness ≤ 9 + maxWitnessItems.toNat * 9 + maxWitnessSize := by
  have items : totalSize SizedBytes.encodedSize witness ≤
      totalSize List.length witness + witness.length * 9 := by
    clear limits
    induction witness with
    | nil => exact Nat.zero_le _
    | cons item witness ih =>
      have first := (SizedBytes.encodedSize_bounds item).2
      change SizedBytes.encodedSize item + totalSize SizedBytes.encodedSize witness ≤
        item.length + totalSize List.length witness + (witness.length + 1) * 9
      omega
  have count := (CompactSize.encodedSize_bounds witness.length.toUInt64).2
  have few := limits.items
  have short := limits.size
  unfold encodedSize
  omega

namespace Transaction

theorem length_encodeAs_lt {transaction : Transaction} (limits : transaction.WithinLimits)
    (segwit : Bool) : (transaction.encodeAs segwit).length < UInt64.size := by
  have inputs : totalSize Input.encodedSize transaction.inputs ≤
      transaction.inputs.length * (maxScriptSize.toNat + 49) := by
    refine totalSize_le fun input member => ?_
    have script := limits.inputScripts input member
    have written := (SizedBytes.encodedSize_bounds input.script).2
    unfold Input.encodedSize OutPoint.encodedSize
    omega
  have outputs : totalSize Output.encodedSize transaction.outputs ≤
      transaction.outputs.length * (maxScriptSize.toNat + 17) := by
    refine totalSize_le fun output member => ?_
    have script := limits.outputScripts output member
    have written := (SizedBytes.encodedSize_bounds output.script).2
    unfold Output.encodedSize
    omega
  have witnesses : witnessesSize transaction.inputs ≤
      transaction.inputs.length * (9 + maxWitnessItems.toNat * 9 + maxWitnessSize) :=
    totalSize_le fun input member => Witness.encodedSize_le (limits.witnesses input member)
  have fewInputs := limits.inputs
  have fewOutputs := limits.outputs
  have inputCount := (CompactSize.encodedSize_bounds transaction.inputs.length.toUInt64).2
  have outputCount := (CompactSize.encodedSize_bounds transaction.outputs.length.toUInt64).2
  have whole : transaction.sizeWithWitness < UInt64.size := by
    unfold sizeWithWitness sizeWithoutWitness inputsSize outputsSize
    change _ ≤ _ * (1000000 + 49) at inputs
    change _ ≤ _ * (1000000 + 17) at outputs
    change _ ≤ _ * (9 + 10000 * 9 + 0x20000000) at witnesses
    change _ ≤ 24390 at fewInputs
    change _ ≤ 111111 at fewOutputs
    change _ < 18446744073709551616
    omega
  cases segwit with
  | true =>
    change transaction.encodeWithWitness.length < UInt64.size
    rwa [length_encodeWithWitness]
  | false =>
    change transaction.encodeWithoutWitness.length < UInt64.size
    rw [length_encodeWithoutWitness]
    unfold sizeWithWitness at whole
    omega

/-! What is short has counts and lengths of its own. -/

theorem bodyFits_of_sizeWithoutWitness_lt {transaction : Transaction}
    (short : transaction.sizeWithoutWitness < UInt64.size) : transaction.BodyFits := by
  have inputs : transaction.inputs.length ≤ totalSize Input.encodedSize transaction.inputs :=
    length_le_totalSize fun _ => Nat.le_add_left_of_le (by decide)
  have outputs : transaction.outputs.length ≤ totalSize Output.encodedSize transaction.outputs :=
    length_le_totalSize fun _ => Nat.le_add_right_of_le (by decide)
  unfold sizeWithoutWitness inputsSize outputsSize at short
  refine ⟨by omega, by omega, fun input member => ?_, fun output member => ?_⟩
  · have part := le_totalSize Input.encodedSize member
    have script : input.script.length < input.encodedSize :=
      Nat.le_add_right_of_le (Nat.le_add_left_of_le (SizedBytes.encodedSize_bounds _).1)
    omega
  · have part := le_totalSize Output.encodedSize member
    have script : output.script.length < output.encodedSize :=
      Nat.le_add_left_of_le (SizedBytes.encodedSize_bounds _).1
    omega

theorem witness_fits_of_encodedSize_lt {witness : Witness}
    (short : witness.encodedSize < UInt64.size) :
    witness.length < UInt64.size ∧ ∀ item ∈ witness, item.length < UInt64.size := by
  have items : witness.length ≤ totalSize SizedBytes.encodedSize witness :=
    length_le_totalSize fun item => Nat.le_of_add_left_le (SizedBytes.encodedSize_bounds item).1
  unfold Witness.encodedSize at short
  refine ⟨by omega, fun item member => ?_⟩
  have part := le_totalSize SizedBytes.encodedSize member
  have bytes := (SizedBytes.encodedSize_bounds item).1
  omega

theorem fits_of_length_encode_lt {transaction : Transaction}
    (short : transaction.encode.length < UInt64.size) : transaction.Fits := by
  rw [length_encode, encodedSize] at short
  cases given : transaction.hasWitness with
  | false =>
    rw [given, if_neg Bool.false_ne_true] at short
    refine ⟨bodyFits_of_sizeWithoutWitness_lt short, fun input member => ?_⟩
    rw [hasWitness_eq_false_iff.mp given input member]
    exact ⟨by decide, List.forall_mem_nil _⟩
  | true =>
    rw [given, if_pos rfl, sizeWithWitness] at short
    refine ⟨bodyFits_of_sizeWithoutWitness_lt (by omega), fun input member => ?_⟩
    have part : input.witness.encodedSize ≤ witnessesSize transaction.inputs :=
      le_totalSize (fun input => input.witness.encodedSize) member
    exact witness_fits_of_encodedSize_lt (by omega)

/-! Reading back. -/

theorem eq_of_encode_eq_encodeAs {transaction other : Transaction} {segwit : Bool}
    (fits : transaction.Fits) (otherFits : other.Fits) (nonempty : transaction.inputs ≠ [])
    (form : other.FitsForm segwit) (same : transaction.encode = other.encodeAs segwit) :
    transaction = other := by
  rw [encode_eq_encodeAs] at same
  cases given : transaction.hasWitness with
  | false =>
    rw [given] at same
    cases segwit with
    | false =>
      have bare := hasWitness_eq_false_iff.mpr (form rfl).2
      have bodies := (encodeWithoutWitness_eq_iff fits.toBodyFits otherFits.toBodyFits).mp same
      rwa [withoutWitnesses_eq_self given, withoutWitnesses_eq_self bare] at bodies
    | true => exact absurd same.symm (encodeWithWitness_ne_encodeWithoutWitness fits.inputs nonempty)
  | true =>
    rw [given] at same
    cases segwit with
    | false =>
      exact absurd same
        (encodeWithWitness_ne_encodeWithoutWitness otherFits.inputs (form rfl).1)
    | true => exact eq_of_encodeWithWitness_eq fits otherFits same

theorem eq_of_ofBytes_encode {transaction other : Transaction} (nonempty : transaction.inputs ≠ [])
    (read : ofBytes transaction.encode = .ok other) : transaction = other := by
  obtain ⟨limits, segwit, form, same⟩ := ofBytes_eq_ok_iff_encodeAs.mp read
  have short : transaction.encode.length < UInt64.size := by
    rw [same]
    exact length_encodeAs_lt limits segwit
  have otherShort : other.encode.length < UInt64.size :=
    length_encodeAs_lt limits other.hasWitness
  exact eq_of_encode_eq_encodeAs (fits_of_length_encode_lt short)
    (fits_of_length_encode_lt otherShort) nonempty form same

theorem inputs_ne_nil_of_encode_eq_encodeAs {transaction : Transaction} {segwit : Bool}
    (form : transaction.FitsForm segwit)
    (same : transaction.encode = transaction.encodeAs segwit) : transaction.inputs ≠ [] := by
  cases segwit with
  | false => exact (form rfl).1
  | true =>
    intro none
    have bare : transaction.hasWitness = false := by
      rw [hasWitness, none]
      rfl
    rw [encode_eq_encodeAs, bare] at same
    have lengths : transaction.encodeWithoutWitness.length = transaction.encodeWithWitness.length :=
      congrArg List.length same
    rw [length_encodeWithoutWitness, length_encodeWithWitness, sizeWithWitness] at lengths
    omega

/-- A transaction is read back from its own bytes exactly if it has an input and is within
the limits. Without an input, the bytes are no transaction or a different one; beyond the
limits, but with an input, they are none. -/
theorem ofBytes_encode_eq_ok_iff (transaction : Transaction) :
    (ofBytes transaction.encode = .ok transaction ↔
      transaction.inputs ≠ [] ∧ transaction.WithinLimits) ∧
    (transaction.inputs = [] → ofBytes transaction.encode ≠ .ok transaction) ∧
    (transaction.inputs ≠ [] → ¬transaction.WithinLimits →
      ∃ e, ofBytes transaction.encode = .error e) := by
  have whole : ofBytes transaction.encode = .ok transaction ↔
      transaction.inputs ≠ [] ∧ transaction.WithinLimits := by
    constructor
    · intro read
      obtain ⟨limits, segwit, form, same⟩ := ofBytes_eq_ok_iff_encodeAs.mp read
      exact ⟨inputs_ne_nil_of_encode_eq_encodeAs form same, limits⟩
    · intro ⟨nonempty, limits⟩
      refine ofBytes_eq_ok_iff_encodeAs.mpr ⟨limits, transaction.hasWitness, fun bare => ?_, rfl⟩
      exact ⟨nonempty, hasWitness_eq_false_iff.mp bare⟩
  refine ⟨whole, fun none read => (whole.mp read).1 none, fun nonempty beyond => ?_⟩
  cases read : ofBytes transaction.encode with
  | error e => exact ⟨e, rfl⟩
  | ok other =>
    obtain rfl := eq_of_ofBytes_encode nonempty read
    exact absurd (whole.mp read).2 beyond

def oversized : Transaction where
  version := 1
  inputs := [⟨⟨Bytes32.zero, 0⟩, List.replicate 1000001 0, 0, []⟩]
  outputs := []
  lockTime := 0

theorem ofBytes_encode_oversized :
    oversized.inputs ≠ [] ∧ ¬oversized.WithinLimits ∧
      ∃ e, ofBytes oversized.encode = .error e := by
  have nonempty : oversized.inputs ≠ [] := List.cons_ne_nil _ _
  have beyond : ¬oversized.WithinLimits := by
    intro limits
    have script := limits.inputScripts _ (List.mem_singleton_self _)
    rw [List.length_replicate] at script
    exact absurd script (by decide)
  exact ⟨nonempty, beyond, (ofBytes_encode_eq_ok_iff oversized).2.2 nonempty beyond⟩

/-- Without inputs, the count of the outputs passes for the flag. -/
example : ofBytes (encode ⟨1, [], [⟨0x100, [0, 0]⟩], 7⟩) = .ok ⟨1, [], [⟨0x2000000000000, []⟩], 7⟩ := by
  rfl

end Transaction

end BitcoinSigning
