import BitcoinSigning.Proofs.Transaction.Reading
/-!
Which bytes decode to a transaction. All parts have one encoding each; what freedom
there is lies in the form of the whole, since a transaction without witnesses may also
be written as one whose witnesses are all empty.
-/

namespace BitcoinSigning.Transaction

open Decoder

/-- What may be decoded: few enough inputs and outputs, no script longer than a block,
and no witness too large. -/
structure WithinLimits (transaction : Transaction) : Prop where
  inputs : transaction.inputs.length ≤ maxInputs.toNat
  outputs : transaction.outputs.length ≤ maxOutputs.toNat
  inputScripts : ∀ input ∈ transaction.inputs, input.script.length ≤ maxScriptSize.toNat
  outputScripts : ∀ output ∈ transaction.outputs, output.script.length ≤ maxScriptSize.toNat
  witnesses : ∀ input ∈ transaction.inputs, input.witness.WithinLimits

/-- The two forms of a transaction. Only the one with a marker has room for
witnesses, and only the one without needs an input. -/
def encodeAs (segwit : Bool) (transaction : Transaction) : Bytes :=
  if segwit then transaction.encodeWithWitness else transaction.encodeWithoutWitness

/-- Which transactions a form can hold. -/
def FitsForm (segwit : Bool) (transaction : Transaction) : Prop :=
  segwit = false → transaction.inputs ≠ [] ∧ ∀ input ∈ transaction.inputs, input.witness = []

theorem encodeAs_eq (segwit : Bool) (transaction : Transaction) :
    transaction.encodeAs segwit = encodeVersion transaction.version ++
      (encodeInputCount segwit transaction.inputs.length.toUInt64 ++
        (transaction.inputs.flatMap Input.encode ++ (encodeOutputs transaction.outputs ++
          ((if segwit then encodeWitnesses transaction.inputs else []) ++
            Bytes.littleEndian 4 transaction.lockTime.toNat)))) := by
  cases segwit with
  | true =>
    simp only [encodeAs, encodeWithWitness, encodeInputCount, encodeInputs, if_true,
      List.append_assoc]
  | false =>
    simp only [encodeAs, encodeWithoutWitness, encodeInputCount, encodeInputs, Bool.false_eq_true,
      if_false, List.append_assoc, List.nil_append]

theorem flatMap_encode_withoutWitness (inputs : List Input) :
    (inputs.map Input.withoutWitness).flatMap Input.encode = inputs.flatMap Input.encode := by
  rw [List.flatMap_map]
  rfl

theorem decodeRest_reads {inputs : List Input} (bare : ∀ input ∈ inputs, input.witness = [])
    (segwit : Bool) :
    Reads (if segwit then decodeWitnesses inputs else pure inputs)
      (fun given => if segwit then encodeWitnesses given else []) fun given =>
        given.map Input.withoutWitness = inputs ∧
          (∀ input ∈ given, input.witness.WithinLimits) ∧
          (segwit = false → ∀ input ∈ given, input.witness = []) := by
  intro source given rest
  cases segwit with
  | true =>
    simp only [if_true, decodeWitnesses_reads bare _ _ _, Bool.true_eq_false, false_imp_iff,
      and_true]
  | false =>
    simp only [Bool.false_eq_true, if_false, pure_eq_ok_iff, Source.prepend_nil, true_imp_iff]
    constructor
    · rintro ⟨rfl, rfl⟩
      refine ⟨⟨map_withoutWitness_eq_self bare, fun input member => ?_, bare⟩, rfl⟩
      rw [bare input member]
      exact Witness.withinLimits_nil
    · rintro ⟨⟨rfl, -, empty⟩, rfl⟩
      exact ⟨map_withoutWitness_eq_self empty, rfl⟩

theorem decode_eq_ok_iff {transaction : Transaction} {source rest : Source} :
    decode source = .ok (transaction, rest) ↔
      transaction.WithinLimits ∧ ∃ segwit, transaction.FitsForm segwit ∧
        source = rest.prepend (transaction.encodeAs segwit) := by
  unfold decode
  simp only [ite_bind, bind_eq_ok_iff, pure_eq_ok_iff, Prod.exists, decodeInputCount_eq_ok_iff,
    decodeInputs_reads _ _ _ _, decodeOutputs_reads _ _ _, uint32_reads _ _ _, encodeAs_eq,
    Source.prepend_append, true_and]
  -- Each step of the decoder has become its field and the source behind it. The bodies of the
  -- inputs are read without their witnesses, which come last and give the inputs themselves.
  constructor
  · rintro ⟨version, _, rfl, segwit, count, _, ⟨counted, rfl⟩, bodies, _, ⟨⟨few, length, each⟩, rfl⟩,
      outputs, _, ⟨⟨fewOutputs, eachOutput⟩, rfl⟩, inputs, _, read, lockTime, _, rfl, rfl, rfl⟩
    have bare := fun input member => (each input member).2
    obtain ⟨⟨rfl, witnesses, empty⟩, rfl⟩ := (decodeRest_reads bare segwit _ _ _).mp read
    rw [List.length_map] at length
    obtain ⟨within, rfl⟩ := CompactSize.announces_iff.mp ⟨UInt64.not_lt.mpr few, length⟩
    rw [flatMap_encode_withoutWitness]
    refine ⟨⟨within, fewOutputs, ?_, eachOutput, witnesses⟩, segwit, fun plain => ⟨?_, empty plain⟩,
      rfl⟩
    · exact fun input member => (each _ (List.mem_map_of_mem member)).1
    · rintro rfl
      exact counted plain rfl
  · obtain ⟨version, inputs, outputs, lockTime⟩ := transaction
    rintro ⟨limits, segwit, fits, rfl⟩
    obtain ⟨few, length⟩ := CompactSize.announces_iff.mpr ⟨limits.inputs, rfl⟩
    have bare : ∀ input ∈ inputs.map Input.withoutWitness, input.witness = [] :=
      List.forall_mem_map.mpr fun _ _ => rfl
    have empty : segwit = false → ∀ input ∈ inputs, input.witness = [] := fun plain => (fits plain).2
    refine ⟨version.toUInt32, _, rfl, segwit, inputs.length.toUInt64, _, ⟨?_, rfl⟩,
      inputs.map Input.withoutWitness, _, ⟨⟨UInt64.not_lt.mp few, ?_, ?_⟩, ?_⟩, outputs, _,
      ⟨⟨limits.outputs, limits.outputScripts⟩, rfl⟩, inputs, _,
      (decodeRest_reads bare segwit _ _ _).mpr ⟨⟨rfl, limits.witnesses, empty⟩, rfl⟩, lockTime, rest,
      rfl, rfl, rfl⟩
    · intro plain zero
      rw [zero] at length
      exact (fits plain).1 (List.eq_nil_of_length_eq_zero length)
    · rw [List.length_map, ← length]
    · exact List.forall_mem_map.mpr fun input member => ⟨limits.inputScripts input member, rfl⟩
    · rw [flatMap_encode_withoutWitness]

/-! Whole byte strings. -/

theorem ofBytes_eq_ok_iff_encodeAs {bytes : Bytes} {transaction : Transaction} :
    ofBytes bytes = .ok transaction ↔
      transaction.WithinLimits ∧ ∃ segwit, transaction.FitsForm segwit ∧
        bytes = transaction.encodeAs segwit := by
  unfold ofBytes
  constructor
  · intro read
    cases decoded : decode (Source.ofBytes bytes) with
    | error e =>
      rw [decoded] at read
      cases read
    | ok found =>
      obtain ⟨other, ⟨left, ending⟩⟩ := found
      rw [decoded] at read
      cases left with
      | cons byte left => cases read
      | nil =>
        cases read
        obtain ⟨limits, segwit, fits, written⟩ := decode_eq_ok_iff.mp decoded
        obtain ⟨whole, -⟩ := (Source.ofBytes_eq_prepend_iff _ _ _).mp written
        rw [List.append_nil] at whole
        exact ⟨limits, segwit, fits, whole⟩
  · rintro ⟨limits, segwit, fits, rfl⟩
    have written := (Source.ofBytes_eq_prepend_iff (transaction.encodeAs segwit) _
      ⟨[], .endOfData⟩).mpr ⟨(List.append_nil _).symm, rfl⟩
    rw [decode_eq_ok_iff.mpr ⟨limits, segwit, fits, written⟩]
    rfl

theorem hasWitness_eq_false_iff {transaction : Transaction} :
    transaction.hasWitness = false ↔ ∀ input ∈ transaction.inputs, input.witness = [] := by
  simp only [hasWitness, List.any_eq_false, Bool.not_eq_true', Bool.not_eq_false,
    List.isEmpty_iff]

theorem encode_eq_encodeAs (transaction : Transaction) :
    transaction.encode = transaction.encodeAs transaction.hasWitness := rfl

theorem length_encodeVersion (version : Int32) : (encodeVersion version).length = 4 :=
  Bytes.length_littleEndian 4 _

/-- Bytes with the marker and the flag put in after the version, and as many empty
witnesses as there are inputs before the lock time. -/
def superfluousForm (inputs : Nat) (bytes : Bytes) : Bytes :=
  bytes.take 4 ++ [0x00, 0x01] ++ (bytes.drop 4).take (bytes.length - 8) ++
    List.replicate inputs 0x00 ++ bytes.drop (bytes.length - 4)

theorem superfluousForm_append {inputs : Nat} {version middle lockTime : Bytes}
    (four : version.length = 4) (last : lockTime.length = 4) :
    superfluousForm inputs (version ++ middle ++ lockTime) =
      version ++ [0x00, 0x01] ++ middle ++ List.replicate inputs 0x00 ++ lockTime := by
  have length : (version ++ middle ++ lockTime).length = middle.length + 8 := by
    rw [List.length_append, List.length_append]
    omega
  have front : (version ++ middle).length = middle.length + 8 - 4 := by
    rw [List.length_append]
    omega
  rw [superfluousForm, length, List.drop_left' front, List.append_assoc version,
    List.take_left' four, List.drop_left' four, Nat.add_sub_cancel, List.take_left]

theorem encodeWitnesses_of_empty {inputs : List Input}
    (empty : ∀ input ∈ inputs, input.witness = []) :
    encodeWitnesses inputs = List.replicate inputs.length 0x00 := by
  induction inputs with
  | nil => rfl
  | cons input inputs ih =>
    obtain ⟨first, others⟩ := List.forall_mem_cons.mp empty
    have step : encodeWitnesses (input :: inputs) =
        input.witness.encode ++ encodeWitnesses inputs := List.flatMap_cons
    rw [step, first, ih others]
    rfl

theorem encodeAs_true_of_hasWitness_eq_false {transaction : Transaction}
    (bare : transaction.hasWitness = false) :
    transaction.encodeAs true = superfluousForm transaction.inputs.length transaction.encode := by
  have middle : transaction.encode = encodeVersion transaction.version ++
      (encodeInputs transaction.inputs ++ encodeOutputs transaction.outputs) ++
        Bytes.littleEndian 4 transaction.lockTime.toNat := by
    rw [encode_eq_encodeAs, bare, ← List.append_assoc]
    rfl
  rw [middle, superfluousForm_append (length_encodeVersion _) (Bytes.length_littleEndian 4 _),
    ← encodeWitnesses_of_empty (hasWitness_eq_false_iff.mp bare),
    ← List.append_assoc _ (encodeInputs transaction.inputs)]
  rfl

/-- The bytes that decode to a transaction are those that it is written with, if it has
an input, and those of its superfluous form with empty witnesses, if it has no others. -/
theorem ofBytes_eq_ok_iff (bytes : Bytes) (transaction : Transaction) :
    ofBytes bytes = .ok transaction ↔
      transaction.WithinLimits ∧
        (transaction.inputs ≠ [] ∧ bytes = transaction.encode ∨
          transaction.hasWitness = false ∧
            bytes = superfluousForm transaction.inputs.length transaction.encode) := by
  rw [ofBytes_eq_ok_iff_encodeAs]
  refine and_congr_right fun limits => ⟨?decoded, ?written⟩
  case decoded =>
    rintro ⟨segwit, fits, rfl⟩
    cases segwit with
    | false =>
      obtain ⟨nonempty, empty⟩ := fits rfl
      have bare := hasWitness_eq_false_iff.mpr empty
      exact Or.inl ⟨nonempty, by rw [encode_eq_encodeAs, bare]⟩
    | true =>
      cases given : transaction.hasWitness with
      | false => exact Or.inr ⟨rfl, encodeAs_true_of_hasWitness_eq_false given⟩
      | true =>
        refine Or.inl ⟨?_, by rw [encode_eq_encodeAs, given]⟩
        intro none
        rw [hasWitness, none] at given
        cases given
  case written =>
    rintro (⟨nonempty, rfl⟩ | ⟨bare, rfl⟩)
    · refine ⟨transaction.hasWitness, fun bare => ⟨nonempty, ?_⟩, rfl⟩
      exact hasWitness_eq_false_iff.mp bare
    · exact ⟨true, nofun, (encodeAs_true_of_hasWitness_eq_false bare).symm⟩

end BitcoinSigning.Transaction
