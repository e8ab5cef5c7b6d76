import BitcoinSigning.Proofs.Sighash.Coverage
/-!
What a signature of an input with a witness commits to. Its message has a fixed layout
around the script, with digests of the parts whose lengths vary. So two requests with one
digest agree in all that their kind covers, as long as no two of the strings that are
digested for them collide, and none of the parts has the zeros that stand for no part
as its digest.
-/

namespace BitcoinSigning

open Decoder

/-! The layout of the message. -/

structure WitnessMessage where
  version : Int32
  outPoints : Bytes32
  sequences : Bytes32
  outPoint : OutPoint
  script : Bytes
  value : UInt64
  sequence : UInt32
  outputs : Bytes32
  lockTime : UInt32
  kind : SighashKind

namespace WitnessMessage

def encode (message : WitnessMessage) : Bytes :=
  Transaction.encodeVersion message.version ++ message.outPoints.bytes ++
    message.sequences.bytes ++ message.outPoint.encode ++ SizedBytes.encode message.script ++
    Bytes.littleEndian 8 message.value.toNat ++ Bytes.littleEndian 4 message.sequence.toNat ++
    message.outputs.bytes ++ Bytes.littleEndian 4 message.lockTime.toNat ++
    Bytes.littleEndian 4 message.kind.bits.toNat

theorem encode_injective : Function.Injective encode := by
  intro a b same
  simp only [encode, SizedBytes.encode, List.append_assoc] at same
  obtain ⟨version, same⟩ := Transaction.version_append_eq same
  obtain ⟨outPoints, same⟩ := bytes32_reads.prefixFree trivial trivial same
  obtain ⟨sequences, same⟩ := bytes32_reads.prefixFree trivial trivial same
  obtain ⟨outPoint, same⟩ := OutPoint.encode_prefixFree trivial trivial same
  obtain ⟨-, same⟩ := CompactSize.decode_reads.prefixFree trivial trivial same
  -- The fields behind the script have as many bytes in both, so its end is found from there.
  obtain ⟨script, same⟩ := List.append_inj' same (by
    simp only [List.length_append, Bytes.length_littleEndian, Bytes32.length_eq])
  obtain ⟨value, same⟩ := uint64_reads.prefixFree trivial trivial same
  obtain ⟨sequence, same⟩ := uint32_reads.prefixFree trivial trivial same
  obtain ⟨outputs, same⟩ := bytes32_reads.prefixFree trivial trivial same
  obtain ⟨lockTime, same⟩ := uint32_reads.prefixFree trivial trivial same
  have bits := uint32_reads.prefixFree.eq_of_encode_eq trivial trivial same
  have kind : a.kind = b.kind := congrArg SighashKind.mk bits
  cases a
  cases b
  simp only at version outPoints sequences outPoint script value sequence outputs lockTime kind
  rw [version, outPoints, sequences, outPoint, script, value, sequence, outputs, lockTime, kind]

end WitnessMessage

/-! Digests of parts. -/

/-- The digest of a part, or zeros where it is left out. -/
def partDigest : Option Bytes → Bytes32
  | none => Bytes32.zero
  | some part => doubleSha256 part

/-- Two different strings among these have one digest. -/
def Collides (strings : List Bytes) : Prop :=
  ∃ x ∈ strings, ∃ y ∈ strings, x ≠ y ∧ doubleSha256 x = doubleSha256 y

/-- One of these strings has the digest that stands for no part. -/
def HasZeroDigest (strings : List Bytes) : Prop :=
  ∃ x ∈ strings, doubleSha256 x = Bytes32.zero

theorem Collides.mono {strings others : List Bytes} (within : strings ⊆ others)
    (collides : Collides strings) : Collides others := by
  obtain ⟨x, inX, y, inY, different⟩ := collides
  exact ⟨x, within inX, y, within inY, different⟩

theorem eq_or_collides {strings : List Bytes} {x y : Bytes} (inX : x ∈ strings)
    (inY : y ∈ strings) (same : doubleSha256 x = doubleSha256 y) : x = y ∨ Collides strings := by
  by_cases equal : x = y
  · exact Or.inl equal
  · exact Or.inr ⟨x, inX, y, inY, equal, same⟩

theorem eq_of_partDigest_eq {strings others : List Bytes} {p q : Option Bytes}
    (inP : p.toList ⊆ strings) (inQ : q.toList ⊆ others) (free : ¬Collides (strings ++ others))
    (nonzero : ¬HasZeroDigest (strings ++ others)) (same : partDigest p = partDigest q) :
    p = q := by
  have digested (x : Bytes) (member : x ∈ p.toList ∨ x ∈ q.toList) : x ∈ strings ++ others := by
    rcases member with left | right
    · exact List.mem_append_left _ (inP left)
    · exact List.mem_append_right _ (inQ right)
  cases p with
  | none =>
    cases q with
    | none => rfl
    | some y =>
      have digestedY := digested y (Or.inr (List.mem_singleton_self y))
      exact absurd ⟨y, digestedY, same.symm⟩ nonzero
  | some x =>
    have digestedX := digested x (Or.inl (List.mem_singleton_self x))
    cases q with
    | none => exact absurd ⟨x, digestedX, same⟩ nonzero
    | some y =>
      have digestedY := digested y (Or.inr (List.mem_singleton_self y))
      rw [(eq_or_collides digestedX digestedY same).resolve_right free]

namespace Transaction

variable (transaction : Transaction) (index : Nat) (script : Bytes) (kind : SighashKind)
  (value : UInt64)

/-! The parts. -/

def outPointsPart? : Option Bytes :=
  if kind.anyoneCanPay then none
  else some (transaction.inputs.flatMap fun input => input.outPoint.encode)

def sequencesPart? : Option Bytes :=
  if kind.anyoneCanPay || kind.isNone || kind.isSingle then none
  else some (transaction.inputs.flatMap fun input => Bytes.littleEndian 4 input.sequence.toNat)

def outputsPart? : Option Bytes :=
  if kind.isNone then none
  else if kind.isSingle then transaction.outputs[index]?.map Output.encode
  else some (transaction.outputs.flatMap Output.encode)

/-- The parts that are digested for their digests to stand in the message. -/
def digestedParts : List Bytes :=
  (transaction.outPointsPart? kind).toList ++ (transaction.sequencesPart? kind).toList ++
    (transaction.outputsPart? index kind).toList

variable {index kind} in
theorem mem_digestedParts {part : Bytes}
    (member : part ∈ (transaction.outPointsPart? kind).toList ∨
      part ∈ (transaction.sequencesPart? kind).toList ∨
      part ∈ (transaction.outputsPart? index kind).toList) :
    part ∈ transaction.digestedParts index kind := by
  rw [digestedParts, List.mem_append, List.mem_append, or_assoc]
  exact member

/-- All strings that are digested for a request: the message, if the input is there, and
the parts. -/
def digestedStrings : List Bytes :=
  (transaction.inputs[index]?.map fun input =>
    transaction.witnessPreimage index input script kind value).toList ++
      transaction.digestedParts index kind

theorem mem_digestedStrings_of_part {part : Bytes}
    (member : part ∈ transaction.digestedParts index kind) :
    part ∈ transaction.digestedStrings index script kind value :=
  List.mem_append_right _ member

theorem witnessPreimage_mem_digestedStrings {input : Input}
    (found : transaction.inputs[index]? = some input) :
    transaction.witnessPreimage index input script kind value ∈
      transaction.digestedStrings index script kind value := by
  rw [digestedStrings, found]
  exact List.mem_append_left _ (List.mem_singleton_self _)

def witnessMessage (input : Input) : WitnessMessage where
  version := transaction.version
  outPoints := partDigest (transaction.outPointsPart? kind)
  sequences := partDigest (transaction.sequencesPart? kind)
  outPoint := input.outPoint
  script := script
  value := value
  sequence := input.sequence
  outputs := partDigest (transaction.outputsPart? index kind)
  lockTime := transaction.lockTime
  kind := kind

theorem witnessPreimage_eq_encode (input : Input) :
    transaction.witnessPreimage index input script kind value =
      (transaction.witnessMessage index script kind value input).encode := by
  have outPoints : (if kind.anyoneCanPay then Bytes32.zero else transaction.outPointsDigest) =
      partDigest (transaction.outPointsPart? kind) := by
    unfold outPointsPart?
    split <;> rfl
  have sequences : (if kind.anyoneCanPay || kind.isNone || kind.isSingle then Bytes32.zero
      else transaction.sequencesDigest) = partDigest (transaction.sequencesPart? kind) := by
    unfold sequencesPart?
    split <;> rfl
  have outputs : transaction.coveredOutputsDigest index kind =
      partDigest (transaction.outputsPart? index kind) := by
    unfold coveredOutputsDigest outputsPart?
    split
    · rfl
    · split
      · cases transaction.outputs[index]? <;> rfl
      · rfl
  unfold witnessPreimage
  simp only [outPoints, sequences, outputs]
  rfl

/-! Equal parts. -/

section Parts

variable {index : Nat} {kind : SighashKind} {a b : Transaction}

theorem outPointsPart?_eq_iff :
    a.outPointsPart? kind = b.outPointsPart? kind ↔
      (kind.bits &&& 0x80 = 0 → a.inputs.map Input.outPoint = b.inputs.map Input.outPoint) := by
  have nonempty (outPoint : OutPoint) : outPoint.encode ≠ [] :=
    List.ne_nil_of_length_pos (by rw [OutPoint.length_encode, OutPoint.encodedSize]; decide)
  rw [← SighashKind.anyoneCanPay_eq_false_iff, outPointsPart?, outPointsPart?]
  cases kind.anyoneCanPay with
  | true => exact iff_of_true rfl fun all => absurd all (by decide)
  | false =>
    rw [if_neg Bool.false_ne_true, if_neg Bool.false_ne_true, Option.some.injEq,
      forall_prop_of_true rfl]
    exact OutPoint.encode_prefixFree.flatMap_field_eq_iff nonempty Input.outPoint

theorem sequencesPart?_eq_iff :
    a.sequencesPart? kind = b.sequencesPart? kind ↔
      (kind.bits &&& 0x80 = 0 → kind.base ≠ 2 → kind.base ≠ 3 →
        a.inputs.map Input.sequence = b.inputs.map Input.sequence) := by
  have nonempty (sequence : UInt32) : Bytes.littleEndian 4 sequence.toNat ≠ [] :=
    List.ne_nil_of_length_pos (by rw [Bytes.length_littleEndian]; decide)
  have present : (kind.anyoneCanPay || kind.isNone || kind.isSingle) = false ↔
      kind.bits &&& 0x80 = 0 ∧ kind.base ≠ 2 ∧ kind.base ≠ 3 := by
    rw [Bool.or_assoc, Bool.or_eq_false_iff, SighashKind.anyoneCanPay_eq_false_iff,
      SighashKind.isNone_or_isSingle_eq_false_iff]
  rw [← and_imp, ← and_imp, and_assoc, ← present, sequencesPart?, sequencesPart?]
  cases kind.anyoneCanPay || kind.isNone || kind.isSingle with
  | true => exact iff_of_true rfl fun all => absurd all (by decide)
  | false =>
    rw [if_neg Bool.false_ne_true, if_neg Bool.false_ne_true, Option.some.injEq,
      forall_prop_of_true rfl]
    exact uint32_reads.prefixFree.flatMap_field_eq_iff nonempty Input.sequence

theorem outputsPart?_of_none (uncovered : kind.base = 2) : a.outputsPart? index kind = none :=
  if_pos (SighashKind.isNone_iff.mpr uncovered)

theorem outputsPart?_of_single (single : kind.base = 3) :
    a.outputsPart? index kind = a.outputs[index]?.map Output.encode := by
  rw [outputsPart?, if_neg (mt SighashKind.isNone_iff.mp (SighashKind.base_ne_two single)),
    if_pos (SighashKind.isSingle_iff.mpr single)]

theorem outputsPart?_of_all (notNone : kind.base ≠ 2) (notSingle : kind.base ≠ 3) :
    a.outputsPart? index kind = some (a.outputs.flatMap Output.encode) := by
  rw [outputsPart?, if_neg (mt SighashKind.isNone_iff.mp notNone),
    if_neg (mt SighashKind.isSingle_iff.mp notSingle)]

theorem outputsPart?_eq (output : kind.base = 3 → a.outputs[index]? = b.outputs[index]?)
    (outputs : kind.base ≠ 2 → kind.base ≠ 3 → a.outputs = b.outputs) :
    a.outputsPart? index kind = b.outputsPart? index kind := by
  by_cases none : kind.base = 2
  · rw [outputsPart?_of_none none, outputsPart?_of_none none]
  by_cases single : kind.base = 3
  · rw [outputsPart?_of_single single, outputsPart?_of_single single, output single]
  · rw [outputsPart?_of_all none single, outputsPart?_of_all none single, outputs none single]

variable (fitsA : ∀ output ∈ a.outputs, output.script.length < UInt64.size)
  (fitsB : ∀ output ∈ b.outputs, output.script.length < UInt64.size)

include fitsA fitsB

theorem output_eq_of_outputsPart?_eq (single : kind.base = 3)
    (same : a.outputsPart? index kind = b.outputsPart? index kind) :
    a.outputs[index]? = b.outputs[index]? := by
  rw [outputsPart?_of_single single, outputsPart?_of_single single] at same
  cases foundA : a.outputs[index]? with
  | none =>
    rw [foundA] at same
    rw [Option.map_eq_none_iff.mp same.symm]
  | some outputA =>
    rw [foundA] at same
    obtain ⟨outputB, foundB, bytes⟩ := Option.map_eq_some_iff.mp same.symm
    rw [foundB, Output.encode_prefixFree.eq_of_encode_eq (fitsB _ (List.mem_of_getElem? foundB))
      (fitsA _ (List.mem_of_getElem? foundA)) bytes]

theorem outputs_eq_of_outputsPart?_eq (notNone : kind.base ≠ 2) (notSingle : kind.base ≠ 3)
    (same : a.outputsPart? index kind = b.outputsPart? index kind) : a.outputs = b.outputs := by
  have nonempty (output : Output) : output.encode ≠ [] := by
    rw [Output.encode]
    exact List.append_ne_nil_of_left_ne_nil
      (List.ne_nil_of_length_pos (by rw [Bytes.length_littleEndian]; decide)) _
  rw [outputsPart?_of_all notNone notSingle, outputsPart?_of_all notNone notSingle] at same
  exact Output.encode_prefixFree.eq_of_flatMap_eq nonempty fitsA fitsB (Option.some.inj same)

end Parts

/-! The messages and their digests. -/

section Requests

variable {index : Nat} {kindA kindB : SighashKind} {a b : Transaction} {scriptA scriptB : Bytes}
  {valueA valueB : UInt64} {inputA inputB : Input}

/-- The message holds nothing but what the kind covers. -/
theorem witnessMessage_eq_of_agree (foundA : a.inputs[index]? = some inputA)
    (foundB : b.inputs[index]? = some inputB) (agree : Agree index kindA a b) :
    a.witnessMessage index scriptA kindA valueA inputA =
      b.witnessMessage index scriptA kindA valueA inputB := by
  have outPoint := agree.outPoint
  have sequence := agree.sequence
  rw [foundA, foundB] at outPoint sequence
  unfold witnessMessage
  rw [agree.version, agree.lockTime, outPointsPart?_eq_iff.mpr agree.outPoints,
    sequencesPart?_eq_iff.mpr agree.sequences, outputsPart?_eq agree.output agree.outputs,
    Option.some.inj outPoint, Option.some.inj sequence]

theorem parts_eq_of_witnessMessage_eq {kind : SighashKind}
    (free : ¬Collides (a.digestedParts index kind ++ b.digestedParts index kind))
    (nonzero : ¬HasZeroDigest (a.digestedParts index kind ++ b.digestedParts index kind))
    (same : a.witnessMessage index scriptA kind valueA inputA =
      b.witnessMessage index scriptB kind valueB inputB) :
    a.outPointsPart? kind = b.outPointsPart? kind ∧
      a.sequencesPart? kind = b.sequencesPart? kind ∧
      a.outputsPart? index kind = b.outputsPart? index kind := by
  refine ⟨?outPoints, ?sequences, ?outputs⟩
  case outPoints =>
    exact eq_of_partDigest_eq (fun _ member => a.mem_digestedParts (Or.inl member))
      (fun _ member => b.mem_digestedParts (Or.inl member)) free nonzero
      (congrArg WitnessMessage.outPoints same)
  case sequences =>
    exact eq_of_partDigest_eq (fun _ member => a.mem_digestedParts (Or.inr (Or.inl member)))
      (fun _ member => b.mem_digestedParts (Or.inr (Or.inl member))) free nonzero
      (congrArg WitnessMessage.sequences same)
  case outputs =>
    exact eq_of_partDigest_eq (fun _ member => a.mem_digestedParts (Or.inr (Or.inr member)))
      (fun _ member => b.mem_digestedParts (Or.inr (Or.inr member))) free nonzero
      (congrArg WitnessMessage.outputs same)

/-- The message leaves nothing of what the kind covers open. -/
theorem agree_of_witnessMessage_eq (foundA : a.inputs[index]? = some inputA)
    (foundB : b.inputs[index]? = some inputB)
    (fitsA : ∀ output ∈ a.outputs, output.script.length < UInt64.size)
    (fitsB : ∀ output ∈ b.outputs, output.script.length < UInt64.size)
    (free : ¬Collides (a.digestedParts index kindA ++ b.digestedParts index kindB))
    (nonzero : ¬HasZeroDigest (a.digestedParts index kindA ++ b.digestedParts index kindB))
    (same : a.witnessMessage index scriptA kindA valueA inputA =
      b.witnessMessage index scriptB kindB valueB inputB) :
    kindA = kindB ∧ scriptA = scriptB ∧ valueA = valueB ∧ Agree index kindA a b := by
  obtain rfl : kindA = kindB := congrArg WitnessMessage.kind same
  obtain ⟨outPoints, sequences, outputs⟩ := parts_eq_of_witnessMessage_eq free nonzero same
  refine ⟨rfl, congrArg WitnessMessage.script same, congrArg WitnessMessage.value same, ?_⟩
  constructor
  case version => exact congrArg WitnessMessage.version same
  case lockTime => exact congrArg WitnessMessage.lockTime same
  case outPoint =>
    rw [foundA, foundB]
    exact congrArg some (congrArg WitnessMessage.outPoint same)
  case sequence =>
    rw [foundA, foundB]
    exact congrArg some (congrArg WitnessMessage.sequence same)
  case outPoints => exact outPointsPart?_eq_iff.mp outPoints
  case sequences => exact sequencesPart?_eq_iff.mp sequences
  case output => exact fun single => output_eq_of_outputsPart?_eq fitsA fitsB single outputs
  case outputs =>
    exact fun notNone notSingle =>
      outputs_eq_of_outputsPart?_eq fitsA fitsB notNone notSingle outputs

/-- Requests for an input that is there are answered. Those that agree in the script, the
value and all that their kind covers have one digest. Where the lengths of the outputs'
scripts can be encoded, those that have one digest agree in all this, or two of the strings
that are digested for them collide, or the digest of a part is the zeros that stand for none. -/
theorem witnessSighash_commits (insideA : index < a.inputs.length)
    (insideB : index < b.inputs.length) :
    ∃ digestA digestB,
      a.witnessSighash index scriptA kindA valueA = .ok digestA ∧
      b.witnessSighash index scriptB kindB valueB = .ok digestB ∧
      (kindA = kindB ∧ scriptA = scriptB ∧ valueA = valueB ∧ Agree index kindA a b →
        digestA = digestB) ∧
      ((∀ output ∈ a.outputs, output.script.length < UInt64.size) →
        (∀ output ∈ b.outputs, output.script.length < UInt64.size) → digestA = digestB →
        (kindA = kindB ∧ scriptA = scriptB ∧ valueA = valueB ∧ Agree index kindA a b) ∨
          Collides (a.digestedStrings index scriptA kindA valueA ++
            b.digestedStrings index scriptB kindB valueB) ∨
          HasZeroDigest (a.digestedParts index kindA ++ b.digestedParts index kindB)) := by
  have foundA := List.getElem?_eq_getElem insideA
  have foundB := List.getElem?_eq_getElem insideB
  refine ⟨_, _, by rw [witnessSighash, foundA], by rw [witnessSighash, foundB], ?_, ?_⟩
  · rintro ⟨rfl, rfl, rfl, agree⟩
    rw [witnessPreimage_eq_encode, witnessPreimage_eq_encode,
      witnessMessage_eq_of_agree foundA foundB agree]
  · intro fitsA fitsB same
    by_cases free : Collides (a.digestedStrings index scriptA kindA valueA ++
        b.digestedStrings index scriptB kindB valueB)
    · exact Or.inr (Or.inl free)
    by_cases nonzero : HasZeroDigest (a.digestedParts index kindA ++ b.digestedParts index kindB)
    · exact Or.inr (Or.inr nonzero)
    refine Or.inl
      (agree_of_witnessMessage_eq foundA foundB fitsA fitsB ?partsFree nonzero ?messages)
    case partsFree =>
      refine mt (Collides.mono fun part member => ?_) free
      rcases List.mem_append.mp member with partA | partB
      · exact List.mem_append_left _ (a.mem_digestedStrings_of_part _ _ _ _ partA)
      · exact List.mem_append_right _ (b.mem_digestedStrings_of_part _ _ _ _ partB)
    case messages =>
      have digestedA := a.witnessPreimage_mem_digestedStrings index scriptA kindA valueA foundA
      have digestedB := b.witnessPreimage_mem_digestedStrings index scriptB kindB valueB foundB
      have preimages := (eq_or_collides (List.mem_append_left _ digestedA)
        (List.mem_append_right _ digestedB) same).resolve_right free
      rw [witnessPreimage_eq_encode, witnessPreimage_eq_encode] at preimages
      exact WitnessMessage.encode_injective preimages

/-- The retouched transaction has the digest of the uneven one for its second input and
output alone, and for all outputs only in case of a collision or a digest of zeros. -/
theorem witnessSighash_commits_retouched :
    uneven.witnessSighash 1 [0x51] ⟨3⟩ 5 = retouched.witnessSighash 1 [0x51] ⟨3⟩ 5 ∧
      (uneven.witnessSighash 1 [0x51] ⟨1⟩ 5 = retouched.witnessSighash 1 [0x51] ⟨1⟩ 5 →
        Collides (uneven.digestedStrings 1 [0x51] ⟨1⟩ 5 ++
            retouched.digestedStrings 1 [0x51] ⟨1⟩ 5) ∨
          HasZeroDigest (uneven.digestedParts 1 ⟨1⟩ ++ retouched.digestedParts 1 ⟨1⟩)) := by
  have insideA : 1 < uneven.inputs.length := by decide
  have insideB : 1 < retouched.inputs.length := by decide
  constructor
  · obtain ⟨_, _, answeredA, answeredB, same, -⟩ := witnessSighash_commits insideA insideB
    rw [answeredA, answeredB, same ⟨rfl, rfl, rfl, ?_⟩]
    exact ⟨rfl, rfl, rfl, rfl, fun _ => rfl, fun _ _ notSingle => absurd rfl notSingle,
      fun _ => rfl, fun _ notSingle => absurd rfl notSingle⟩
  · obtain ⟨_, _, answeredA, answeredB, -, only⟩ := witnessSighash_commits insideA insideB
    rw [answeredA, answeredB]
    intro equal
    refine (only (by decide) (by decide) (Except.ok.inj equal)).resolve_left ?_
    intro ⟨_, _, _, agree⟩
    exact absurd (agree.outputs (by decide) (by decide)) (by decide)

end Requests

end Transaction

end BitcoinSigning
