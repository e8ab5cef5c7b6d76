import BitcoinSigning.Proofs.Script.Stripping
import BitcoinSigning.Proofs.Sighash.LegacyMessage
import BitcoinSigning.Proofs.Transaction.Unambiguous
/-!
What a legacy signature commits to. The messages behind two digests are equal exactly
if the requests agree in the parts that their kind covers: the bytes of the covered
copy leave nothing of it open, and everything else has been taken out of it.
-/

namespace BitcoinSigning.Transaction

/-- The transactions agree in all that signatures of this kind for the input at `index`
cover: that input, the other inputs unless anyone may add some, the sequence numbers of
these unless outputs are left open, and the outputs that are not. -/
structure Agree (index : Nat) (kind : SighashKind) (a b : Transaction) : Prop where
  version : a.version = b.version
  lockTime : a.lockTime = b.lockTime
  outPoint : a.inputs[index]?.map Input.outPoint = b.inputs[index]?.map Input.outPoint
  sequence : a.inputs[index]?.map Input.sequence = b.inputs[index]?.map Input.sequence
  outPoints : kind.bits &&& 0x80 = 0 →
    a.inputs.map Input.outPoint = b.inputs.map Input.outPoint
  sequences : kind.bits &&& 0x80 = 0 → kind.base ≠ 2 → kind.base ≠ 3 →
    a.inputs.map Input.sequence = b.inputs.map Input.sequence
  output : kind.base = 3 → a.outputs[index]? = b.outputs[index]?
  outputs : kind.base ≠ 2 → kind.base ≠ 3 → a.outputs = b.outputs

/-- The digest that is requested has a message: the input is there, and its output if
that alone is covered. The lengths of what the message holds can be encoded. -/
structure HasMessage (transaction : Transaction) (index : Nat) (script : Bytes)
    (kind : SighashKind) : Prop where
  inside : index < transaction.inputs.length
  matched : kind.base = 3 → index < transaction.outputs.length
  script : script.length < UInt64.size
  inputs : transaction.inputs.length < UInt64.size
  outputs : transaction.outputs.length < UInt64.size
  outputScripts : ∀ output ∈ transaction.outputs, output.script.length < UInt64.size

variable {index : Nat} {kind : SighashKind} {a b : Transaction} {scriptA scriptB : Bytes}

/-! The covered inputs. -/

theorem coveredInputs_alone {transaction : Transaction} {script : Bytes} {input : Input}
    (alone : kind.anyoneCanPay = true) (found : transaction.inputs[index]? = some input) :
    (transaction.coveredInputs index script kind).map Input.withoutWitness =
      [⟨input.outPoint, Script.strip Opcode.codeSeparator script, input.sequence, []⟩] := by
  rw [coveredInputs, if_pos alone, found]
  rfl

theorem getElem?_coveredInputs {transaction : Transaction} {script : Bytes}
    (all : kind.anyoneCanPay = false) (position : Nat) :
    ((transaction.coveredInputs index script kind).map Input.withoutWitness)[position]? =
      transaction.inputs[position]?.map fun input =>
        ⟨input.outPoint, if position = index then Script.strip Opcode.codeSeparator script else [],
          if position = index ∨ kind.base ≠ 2 ∧ kind.base ≠ 3 then input.sequence else 0, []⟩ := by
  have fixed : (!(kind.isNone || kind.isSingle)) = true ↔ kind.base ≠ 2 ∧ kind.base ≠ 3 := by
    rw [Bool.not_eq_true', SighashKind.isNone_or_isSingle_eq_false_iff]
  rw [List.getElem?_map, coveredInputs, if_neg (Bool.eq_false_iff.mp all), List.getElem?_mapIdx,
    Option.map_map]
  refine congrArg (fun change => transaction.inputs[position]?.map change) (funext fun input => ?_)
  by_cases here : position = index
  · simp only [Function.comp_apply, here, true_or, if_true]
    rfl
  · simp only [Function.comp_apply, here, false_or, fixed, if_false]
    rfl

theorem getElem?_coveredInputs_eq (all : kind.anyoneCanPay = false) {position : Nat}
    (script : Script.strip Opcode.codeSeparator scriptA = Script.strip Opcode.codeSeparator scriptB)
    (outPoint : a.inputs[position]?.map Input.outPoint = b.inputs[position]?.map Input.outPoint)
    (sequence : position = index ∨ kind.base ≠ 2 ∧ kind.base ≠ 3 →
      a.inputs[position]?.map Input.sequence = b.inputs[position]?.map Input.sequence) :
    ((a.coveredInputs index scriptA kind).map Input.withoutWitness)[position]? =
      ((b.coveredInputs index scriptB kind).map Input.withoutWitness)[position]? := by
  rw [getElem?_coveredInputs all, getElem?_coveredInputs all, script]
  cases foundA : a.inputs[position]? with
  | none =>
    rw [foundA] at outPoint
    rw [Option.map_eq_none_iff.mp outPoint.symm]
  | some inputA =>
    rw [foundA] at outPoint sequence
    obtain ⟨inputB, foundB, samePoint⟩ := Option.map_eq_some_iff.mp outPoint.symm
    rw [foundB] at sequence
    rw [foundB, Option.map_some, Option.map_some, samePoint]
    by_cases seen : position = index ∨ kind.base ≠ 2 ∧ kind.base ≠ 3
    · rw [if_pos seen, if_pos seen, Option.some.inj (sequence seen)]
    · rw [if_neg seen, if_neg seen]

theorem coveredInputs_eq_iff_of_alone (alone : kind.anyoneCanPay = true)
    (insideA : index < a.inputs.length) (insideB : index < b.inputs.length) :
    (a.coveredInputs index scriptA kind).map Input.withoutWitness =
        (b.coveredInputs index scriptB kind).map Input.withoutWitness ↔
      Script.strip Opcode.codeSeparator scriptA = Script.strip Opcode.codeSeparator scriptB ∧
        a.inputs[index]?.map Input.outPoint = b.inputs[index]?.map Input.outPoint ∧
        a.inputs[index]?.map Input.sequence = b.inputs[index]?.map Input.sequence := by
  have foundA := List.getElem?_eq_getElem insideA
  have foundB := List.getElem?_eq_getElem insideB
  rw [coveredInputs_alone alone foundA, coveredInputs_alone alone foundB, foundA, foundB]
  simp only [Option.map_some, Option.some.injEq, List.cons.injEq, Input.mk.injEq, and_true]
  exact and_left_comm

theorem map_eq_map_iff {β : Type} {field : Input → β} {inputs others : List Input} :
    inputs.map field = others.map field ↔
      ∀ position : Nat, inputs[position]?.map field = others[position]?.map field := by
  rw [List.ext_getElem?_iff]
  simp only [List.getElem?_map]

theorem coveredInputs_eq_iff_of_all (all : kind.anyoneCanPay = false)
    (insideA : index < a.inputs.length) (insideB : index < b.inputs.length) :
    (a.coveredInputs index scriptA kind).map Input.withoutWitness =
        (b.coveredInputs index scriptB kind).map Input.withoutWitness ↔
      Script.strip Opcode.codeSeparator scriptA = Script.strip Opcode.codeSeparator scriptB ∧
        a.inputs.map Input.outPoint = b.inputs.map Input.outPoint ∧
        a.inputs[index]?.map Input.sequence = b.inputs[index]?.map Input.sequence ∧
        (kind.base ≠ 2 → kind.base ≠ 3 →
          a.inputs.map Input.sequence = b.inputs.map Input.sequence) := by
  constructor
  · intro same
    have each (position : Nat) := congrArg (·[position]?) same
    simp only [getElem?_coveredInputs all] at each
    refine ⟨?script, ?outPoints, ?sequence, fun notNone notSingle => ?sequences⟩
    case script =>
      have here := congrArg (Option.map Input.script) (each index)
      rw [List.getElem?_eq_getElem insideA, List.getElem?_eq_getElem insideB] at here
      simp only [Option.map_some, if_true, Option.some.injEq] at here
      exact here
    case outPoints =>
      refine map_eq_map_iff.mpr fun position => ?_
      have field := congrArg (Option.map Input.outPoint) (each position)
      rw [Option.map_map, Option.map_map] at field
      exact field
    case sequence =>
      have field := congrArg (Option.map Input.sequence) (each index)
      simp only [Option.map_map, true_or, if_true] at field
      exact field
    case sequences =>
      refine map_eq_map_iff.mpr fun position => ?_
      have field := congrArg (Option.map Input.sequence) (each position)
      simp only [Option.map_map, notNone, notSingle, ne_eq, not_false_eq_true, and_self, or_true,
        if_true] at field
      exact field
  · intro ⟨script, outPoints, sequence, sequences⟩
    refine List.ext_getElem? fun position => ?_
    refine getElem?_coveredInputs_eq all script (map_eq_map_iff.mp outPoints position) ?_
    rintro (rfl | ⟨notNone, notSingle⟩)
    · exact sequence
    · exact map_eq_map_iff.mp (sequences notNone notSingle) position

/-! The covered outputs. -/

theorem coveredOutputs_eq_iff :
    a.coveredOutputs index kind = b.coveredOutputs index kind ↔
      (kind.base = 3 → a.outputs[index]? = b.outputs[index]?) ∧
        (kind.base ≠ 2 → kind.base ≠ 3 → a.outputs = b.outputs) := by
  by_cases none : kind.base = 2
  · rw [coveredOutputs_of_none none, coveredOutputs_of_none none]
    exact iff_of_true rfl ⟨fun single => absurd none (SighashKind.base_ne_two single),
      fun notNone => absurd none notNone⟩
  by_cases single : kind.base = 3
  · rw [coveredOutputs_of_single single, coveredOutputs_of_single single,
      List.append_cancel_left_eq]
    constructor
    · intro same
      have outputs := congrArg List.head? same
      rw [Option.head?_toList, Option.head?_toList] at outputs
      exact ⟨fun _ => outputs, fun _ notSingle => absurd single notSingle⟩
    · intro same
      rw [same.1 single]
  · rw [coveredOutputs_of_all none single, coveredOutputs_of_all none single]
    exact ⟨fun same => ⟨fun given => absurd given single, fun _ _ => same⟩,
      fun same => same.2 none single⟩

/-! The covered copy. -/

theorem covered_eq_iff (insideA : index < a.inputs.length) (insideB : index < b.inputs.length) :
    (a.covered index scriptA kind).withoutWitnesses =
        (b.covered index scriptB kind).withoutWitnesses ↔
      Script.strip Opcode.codeSeparator scriptA = Script.strip Opcode.codeSeparator scriptB ∧
        Agree index kind a b := by
  simp only [covered, withoutWitnesses, mk.injEq]
  rw [coveredOutputs_eq_iff]
  cases owned : kind.anyoneCanPay with
  | true =>
    have notAll := SighashKind.anyoneCanPay_iff.mp owned
    rw [coveredInputs_eq_iff_of_alone owned insideA insideB]
    constructor
    · rintro ⟨version, ⟨script, outPoint, sequence⟩, ⟨output, outputs⟩, lockTime⟩
      exact ⟨script, version, lockTime, outPoint, sequence, fun all => absurd all notAll,
        fun all => absurd all notAll, output, outputs⟩
    · rintro ⟨script, agree⟩
      exact ⟨agree.version, ⟨script, agree.outPoint, agree.sequence⟩,
        ⟨agree.output, agree.outputs⟩, agree.lockTime⟩
  | false =>
    have all := SighashKind.anyoneCanPay_eq_false_iff.mp owned
    rw [coveredInputs_eq_iff_of_all owned insideA insideB]
    constructor
    · rintro ⟨version, ⟨script, outPoints, sequence, sequences⟩, ⟨output, outputs⟩, lockTime⟩
      exact ⟨script, version, lockTime, map_eq_map_iff.mp outPoints index, sequence,
        fun _ => outPoints, fun _ => sequences, output, outputs⟩
    · rintro ⟨script, agree⟩
      exact ⟨agree.version, ⟨script, agree.outPoints all, agree.sequence, agree.sequences all⟩,
        ⟨agree.output, agree.outputs⟩, agree.lockTime⟩

/-! The copy has lengths that can be encoded. -/

section Lengths

variable {transaction : Transaction} {script : Bytes}

theorem length_coveredInputs_le :
    (transaction.coveredInputs index script kind).length ≤ transaction.inputs.length := by
  unfold coveredInputs
  cases kind.anyoneCanPay with
  | true =>
    rw [if_pos rfl, List.length_map]
    cases found : transaction.inputs[index]? with
    | none => exact Nat.zero_le _
    | some input =>
      have inside := (List.getElem?_eq_some_iff.mp found).1
      exact Nat.one_le_of_lt inside
  | false =>
    rw [if_neg Bool.false_ne_true, List.length_mapIdx]

theorem script_of_mem_coveredInputs {input : Input}
    (member : input ∈ transaction.coveredInputs index script kind) :
    input.script = Script.strip Opcode.codeSeparator script ∨ input.script = [] := by
  unfold coveredInputs at member
  cases owned : kind.anyoneCanPay with
  | true =>
    rw [owned, if_pos rfl] at member
    obtain ⟨original, -, rfl⟩ := List.mem_map.mp member
    exact Or.inl rfl
  | false =>
    rw [owned, if_neg Bool.false_ne_true] at member
    obtain ⟨position, inside, rfl⟩ := List.mem_mapIdx.mp member
    by_cases here : position = index
    · simp only [here, if_true, true_or]
    · simp only [here, if_false, or_true]

theorem length_coveredOutputs_le
    (matched : kind.base = 3 → index < transaction.outputs.length) :
    (transaction.coveredOutputs index kind).length ≤ transaction.outputs.length := by
  unfold coveredOutputs
  split
  · exact Nat.zero_le _
  split
  · rename_i single
    have inside := matched (SighashKind.isSingle_iff.mp single)
    rw [List.length_append, List.length_replicate, List.getElem?_eq_getElem inside]
    exact inside
  · exact Nat.le_refl _

theorem mem_of_mem_coveredOutputs {output : Output}
    (member : output ∈ transaction.coveredOutputs index kind) :
    output = blankOutput ∨ output ∈ transaction.outputs := by
  unfold coveredOutputs at member
  split at member
  · cases member
  split at member
  · rcases List.mem_append.mp member with blank | kept
    · exact Or.inl (List.eq_of_mem_replicate blank)
    · exact Or.inr (List.mem_of_getElem? (Option.mem_toList.mp kept))
  · exact Or.inr member

theorem HasMessage.bodyFits_covered (request : HasMessage transaction index script kind) :
    (transaction.covered index script kind).BodyFits where
  inputs := Nat.lt_of_le_of_lt length_coveredInputs_le request.inputs
  outputs := Nat.lt_of_le_of_lt (length_coveredOutputs_le request.matched) request.outputs
  inputScripts := by
    intro input member
    rcases script_of_mem_coveredInputs member with stripped | empty
    · rw [stripped]
      exact Nat.lt_of_le_of_lt (Script.length_strip_le _ script) request.script
    · rw [empty]
      decide
  outputScripts := by
    intro output member
    rcases mem_of_mem_coveredOutputs member with rfl | kept
    · decide
    · exact request.outputScripts output kept

end Lengths

/-! The messages. -/

/-- The messages for two requests are equal exactly if the requests are of one kind and
agree in the stripped scripts and in all that the kind covers. Nothing else enters the
messages, nor the digests, which are those of the messages. -/
theorem message_eq_iff_agree {kindA kindB : SighashKind}
    (requestA : HasMessage a index scriptA kindA) (requestB : HasMessage b index scriptB kindB) :
    ∃ messageA messageB,
      (a.sighashPreimage? index scriptA kindA = some messageA ∧
        a.sighash index scriptA kindA = doubleSha256 messageA) ∧
      (b.sighashPreimage? index scriptB kindB = some messageB ∧
        b.sighash index scriptB kindB = doubleSha256 messageB) ∧
      (messageA = messageB ↔
        kindA = kindB ∧
          Script.strip Opcode.codeSeparator scriptA = Script.strip Opcode.codeSeparator scriptB ∧
          Agree index kindA a b) := by
  have foundA : a.sighashPreimage? index scriptA kindA = _ :=
    sighashPreimage?_eq_some requestA.inside requestA.matched
  have foundB : b.sighashPreimage? index scriptB kindB = _ :=
    sighashPreimage?_eq_some requestB.inside requestB.matched
  refine ⟨_, _, ⟨foundA, by rw [sighash, foundA]⟩, ⟨foundB, by rw [sighash, foundB]⟩, ?_, ?_⟩
  · intro same
    obtain ⟨copies, last⟩ := encodeWithoutWitness_append_eq requestA.bodyFits_covered
      requestB.bodyFits_covered same
    have bits := Decoder.uint32_reads.prefixFree.eq_of_encode_eq trivial trivial last
    obtain rfl : kindA = kindB := congrArg SighashKind.mk bits
    exact ⟨rfl, (covered_eq_iff requestA.inside requestB.inside).mp copies⟩
  · rintro ⟨rfl, agree⟩
    have copies := (covered_eq_iff requestA.inside requestB.inside).mpr agree
    rw [(encodeWithoutWitness_eq_iff requestA.bodyFits_covered requestB.bodyFits_covered).mpr copies]

def retouched : Transaction where
  version := 2
  inputs := [⟨⟨Bytes32.zero, 0⟩, [1, 2], 9, []⟩, ⟨⟨Bytes32.zero, 1⟩, [3], 7, [[4], []]⟩,
    ⟨⟨Bytes32.zero, 2⟩, [], 0, []⟩]
  outputs := [⟨8, [0x6a]⟩, ⟨6, [0x51]⟩, ⟨1, []⟩]
  lockTime := 0

theorem hasMessage_uneven_retouched (bits : UInt32) (script : Bytes) (short : script.length ≤ 2) :
    HasMessage uneven 1 script ⟨bits⟩ ∧ HasMessage retouched 1 script ⟨bits⟩ := by
  have fits : script.length < UInt64.size := Nat.lt_of_le_of_lt short (by decide)
  exact ⟨⟨by decide, fun _ => by decide, fits, by decide, by decide, by decide⟩,
    ⟨by decide, fun _ => by decide, fits, by decide, by decide, by decide⟩⟩

/-- A signature of the second input and its output alone does not see the changes, nor a
separator in the script. One of all outputs does. -/
theorem message_eq_iff_agree_retouched :
    uneven.sighashPreimage? 1 [0x51, 0xab] ⟨3⟩ = retouched.sighashPreimage? 1 [0x51] ⟨3⟩ ∧
      uneven.sighashPreimage? 1 [0x51] ⟨1⟩ ≠ retouched.sighashPreimage? 1 [0x51] ⟨1⟩ := by
  constructor
  · obtain ⟨_, _, ⟨foundA, -⟩, ⟨foundB, -⟩, same⟩ := message_eq_iff_agree
      (hasMessage_uneven_retouched 3 [0x51, 0xab] (by decide)).1
      (hasMessage_uneven_retouched 3 [0x51] (by decide)).2
    have agree : Agree 1 ⟨3⟩ uneven retouched :=
      ⟨rfl, rfl, rfl, rfl, fun _ => rfl, fun _ _ notSingle => absurd rfl notSingle, fun _ => rfl,
        fun _ notSingle => absurd rfl notSingle⟩
    rw [foundA, foundB, same.mpr ⟨rfl, by decide +kernel, agree⟩]
  · obtain ⟨_, _, ⟨foundA, -⟩, ⟨foundB, -⟩, same⟩ := message_eq_iff_agree
      (hasMessage_uneven_retouched 1 [0x51] (by decide)).1
      (hasMessage_uneven_retouched 1 [0x51] (by decide)).2
    rw [foundA, foundB]
    intro equal
    have agree := (same.mp (Option.some.inj equal)).2.2
    exact absurd (agree.outputs (by decide) (by decide)) (by decide)

end BitcoinSigning.Transaction
