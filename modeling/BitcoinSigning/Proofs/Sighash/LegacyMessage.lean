import BitcoinSigning.Proofs.Sighash.Unlocking
import Mathlib.Data.List.FinRange
import Mathlib.Data.List.Indexes
/-!
The bytes behind the legacy digest, put together from the transaction as it is. No
input or output is changed first: each part of the message is read from its place
in the transaction, and that place is always there. The same bytes come of a copy
that is edited in place, and then none of the edits falls outside of it.
-/

namespace BitcoinSigning.Transaction

/-! The message. -/

def messageInput (input : Input) (script : Bytes) (sequence : UInt32) : Bytes :=
  input.outPoint.encode ++ SizedBytes.encode script ++ Bytes.littleEndian 4 sequence.toNat

def messageBlank : Bytes := List.replicate 8 0xff ++ SizedBytes.encode []

variable (transaction : Transaction) (index : Nat) (script : Bytes) (kind : SighashKind)

/-- The inputs of the message: the signed one alone, or all of them. The signed one
has the script that it spends and its own sequence number. -/
def messageInputs (inside : index < transaction.inputs.length) : Bytes :=
  let stripped := Script.strip Opcode.codeSeparator script
  if kind.bits &&& 0x80 ≠ 0 then
    let input := transaction.inputs.get ⟨index, inside⟩
    CompactSize.encode 1 ++ messageInput input stripped input.sequence
  else
    CompactSize.encode transaction.inputs.length.toUInt64 ++
      (List.finRange transaction.inputs.length).flatMap fun position =>
        let input := transaction.inputs.get position
        messageInput input (if position.val = index then stripped else [])
          (if position.val = index ∨ kind.base ≠ 2 ∧ kind.base ≠ 3 then input.sequence else 0)

/-- The outputs of the message: none, the one at the input's position behind blanks,
or all of them. -/
def messageOutputs (matched : kind.base = 3 → index < transaction.outputs.length) : Bytes :=
  if kind.base = 2 then CompactSize.encode 0
  else if single : kind.base = 3 then
    CompactSize.encode (index + 1).toUInt64 ++ (List.replicate index messageBlank).flatten ++
      (transaction.outputs.get ⟨index, matched single⟩).encode
  else
    CompactSize.encode transaction.outputs.length.toUInt64 ++
      transaction.outputs.flatMap Output.encode

/-- All that a digest commits to, where the input is there, and its output if that
one alone is covered. -/
def message (inside : index < transaction.inputs.length)
    (matched : kind.base = 3 → index < transaction.outputs.length) : Bytes :=
  Bytes.littleEndian 4 transaction.version.toUInt32.toNat ++
    transaction.messageInputs index script kind inside ++
    transaction.messageOutputs index kind matched ++
    Bytes.littleEndian 4 transaction.lockTime.toNat ++
    Bytes.littleEndian 4 kind.bits.toNat

/-! The encoded copy is the message. -/

variable {transaction index script kind}

theorem flatMap_mapIdx_eq_finRange {α β γ : Type} (items : List α) (change : Nat → α → β)
    (encode : β → List γ) :
    (items.mapIdx change).flatMap encode =
      (List.finRange items.length).flatMap fun position =>
        encode (change position.val (items.get position)) := by
  rw [List.mapIdx_eq_ofFn, List.ofFn_eq_map, List.flatMap_map]

theorem encodeInputs_coveredInputs (inside : index < transaction.inputs.length) :
    encodeInputs (transaction.coveredInputs index script kind) =
      transaction.messageInputs index script kind inside := by
  unfold coveredInputs messageInputs
  by_cases alone : kind.bits &&& 0x80 ≠ 0
  · have alone' : kind.anyoneCanPay = true := SighashKind.anyoneCanPay_iff.mpr alone
    rw [if_pos alone', if_pos alone, List.getElem?_eq_getElem inside]
    exact congrArg (CompactSize.encode 1 ++ ·) (List.append_nil _)
  · have all : ¬kind.anyoneCanPay = true := mt SighashKind.anyoneCanPay_iff.mp alone
    rw [if_neg all, if_neg alone, encodeInputs, List.length_mapIdx, flatMap_mapIdx_eq_finRange]
    refine congrArg (fun encode => _ ++ (List.finRange _).flatMap encode) (funext ?_)
    intro position
    by_cases here : position.val = index
    · simp only [here, true_or, if_true]
      rfl
    · have fixed : (!(kind.isNone || kind.isSingle)) = true ↔
          position.val = index ∨ kind.base ≠ 2 ∧ kind.base ≠ 3 := by
        rw [Bool.not_eq_true', SighashKind.isNone_or_isSingle_eq_false_iff, or_iff_right here]
      rw [if_neg here, if_neg here]
      simp only [fixed]
      rfl

theorem encodeOutputs_coveredOutputs
    (matched : kind.base = 3 → index < transaction.outputs.length) :
    encodeOutputs (transaction.coveredOutputs index kind) =
      transaction.messageOutputs index kind matched := by
  unfold messageOutputs
  by_cases none : kind.base = 2
  · rw [coveredOutputs_of_none none, if_pos none]
    rfl
  rw [if_neg none]
  by_cases single : kind.base = 3
  · have blanks : (List.replicate index blankOutput).flatMap Output.encode =
        (List.replicate index messageBlank).flatten := by
      rw [List.flatMap_def, List.map_replicate]
      rfl
    rw [coveredOutputs_of_single single, dif_pos single,
      List.getElem?_eq_getElem (matched single), Option.toList_some, encodeOutputs,
      List.length_append, List.length_replicate, List.flatMap_append, blanks,
      List.flatMap_singleton, ← List.append_assoc]
    rfl
  · rw [coveredOutputs_of_all none single, dif_neg single]
    rfl

/-! The copy that is edited in place. -/

section Edits

variable (transaction : Transaction) (index : Nat) (script : Bytes) (kind : SighashKind)

/-- The inputs with their scripts cleared, and then the script at the index replaced. -/
def rescriptedInputs? : Option (List Input) :=
  let cleared := transaction.inputs.map fun input => { input with script := [] }
  cleared[index]?.map fun input =>
    cleared.set index { input with script := Script.strip Opcode.codeSeparator script }

/-- The inputs of the copy after its edits, unless one of them is outside. -/
def editedInputs? : Option (List Input) := do
  let inputs ← transaction.rescriptedInputs? index script
  if kind.anyoneCanPay then
    let input ← inputs[index]?
    pure [input]
  else if kind.isNone || kind.isSingle then
    pure (inputs.mapIdx fun position input =>
      if position = index then input else { input with sequence := 0 })
  else pure inputs

/-- The outputs up to the index are kept, and all before it become blank. Only as
many as there are can become blank. -/
def blankedOutputs? : Option (List Output) :=
  let kept := transaction.outputs.take (index + 1)
  if index ≤ kept.length then
    some ((kept.take index).map (fun _ => blankOutput) ++ kept.drop index)
  else none

def editedOutputs? : Option (List Output) :=
  if kind.isNone then some []
  else if kind.isSingle then transaction.blankedOutputs? index
  else some transaction.outputs

def editedCopy? : Option Transaction := do
  let inputs ← transaction.editedInputs? index script kind
  let outputs ← transaction.editedOutputs? index kind
  pure { transaction with inputs, outputs }

end Edits

theorem rescriptedInputs?_eq (inside : index < transaction.inputs.length) :
    transaction.rescriptedInputs? index script =
      some (transaction.inputs.mapIdx fun position input => { input with
        script := if position = index then Script.strip Opcode.codeSeparator script else [] }) := by
  rw [rescriptedInputs?, List.getElem?_map, List.getElem?_eq_getElem inside, Option.map_some,
    Option.map_some]
  congr 1
  apply List.ext_getElem?
  intro position
  rw [List.getElem?_mapIdx]
  by_cases here : index = position
  · subst here
    rw [List.getElem?_set_self (by rwa [List.length_map]), List.getElem?_eq_getElem inside,
      Option.map_some, if_pos rfl]
  · rw [List.getElem?_set_ne here, List.getElem?_map]
    simp only [if_neg (Ne.symm here)]

theorem editedInputs?_eq (inside : index < transaction.inputs.length) :
    transaction.editedInputs? index script kind =
      some (transaction.coveredInputs index script kind) := by
  unfold editedInputs? coveredInputs
  rw [rescriptedInputs?_eq inside, Option.bind_eq_bind, Option.bind_some]
  by_cases alone : kind.anyoneCanPay
  · rw [if_pos alone, if_pos alone, List.getElem?_mapIdx, List.getElem?_eq_getElem inside]
    simp only [Option.map_some, if_true]
    rfl
  rw [if_neg alone, if_neg alone]
  cases kind.isNone || kind.isSingle with
  | true =>
    rw [if_pos rfl, List.mapIdx_mapIdx]
    refine congrArg (fun change => some (transaction.inputs.mapIdx change)) (funext₂ ?_)
    intro position input
    by_cases here : position = index
    · simp only [Function.comp_apply, if_pos here]
    · simp only [Function.comp_apply, if_neg here]
      rfl
  | false =>
    rw [if_neg Bool.false_ne_true]
    refine congrArg (fun change => some (transaction.inputs.mapIdx change)) (funext₂ ?_)
    intro position input
    by_cases here : position = index
    · simp only [if_pos here]
    · simp only [if_neg here]
      rfl

theorem blankedOutputs?_eq (inside : index < transaction.outputs.length) :
    transaction.blankedOutputs? index =
      some (List.replicate index blankOutput ++ transaction.outputs[index]?.toList) := by
  have kept : transaction.outputs.take (index + 1) =
      transaction.outputs.take index ++ transaction.outputs[index]?.toList := List.take_add_one
  have width : (transaction.outputs.take index).length = index :=
    List.length_take_of_le inside.le
  rw [blankedOutputs?, kept, if_pos (by rw [List.length_append]; omega), List.take_left' width,
    List.drop_left' width, List.map_const', width]

theorem editedOutputs?_eq (matched : kind.base = 3 → index < transaction.outputs.length) :
    transaction.editedOutputs? index kind = some (transaction.coveredOutputs index kind) := by
  unfold editedOutputs? coveredOutputs
  by_cases none : kind.isNone
  · rw [if_pos none, if_pos none]
  rw [if_neg none, if_neg none]
  by_cases single : kind.isSingle
  · rw [if_pos single, if_pos single, blankedOutputs?_eq (matched (SighashKind.isSingle_iff.mp single))]
  · rw [if_neg single, if_neg single]

theorem editedCopy?_eq (inside : index < transaction.inputs.length)
    (matched : kind.base = 3 → index < transaction.outputs.length) :
    transaction.editedCopy? index script kind = some (transaction.covered index script kind) := by
  rw [editedCopy?, editedInputs?_eq inside, editedOutputs?_eq matched]
  rfl

/-! The digest. -/

def withWitnesses (transaction : Transaction) (witnesses : Nat → Witness) : Transaction :=
  { transaction with
    inputs := transaction.inputs.mapIdx fun position input =>
      { input with witness := witnesses position } }

theorem locked_withWitnesses (transaction : Transaction) (witnesses : Nat → Witness) :
    (transaction.withWitnesses witnesses).locked = transaction.locked := by
  refine congrArg (fun inputs => { transaction with inputs }) (List.ext_getElem? fun position => ?_)
  rw [withWitnesses, List.getElem?_map, List.getElem?_mapIdx, List.getElem?_map, Option.map_map]
  rfl

theorem sighashPreimage?_withWitnesses (witnesses : Nat → Witness) :
    (transaction.withWitnesses witnesses).sighashPreimage? index script kind =
      transaction.sighashPreimage? index script kind := by
  rw [← sighashPreimage?_locked, locked_withWitnesses, sighashPreimage?_locked]

theorem sighashPreimage?_eq_none
    (outside : transaction.inputs.length ≤ index ∨
      kind.base = 3 ∧ transaction.outputs.length ≤ index) :
    transaction.sighashPreimage? index script kind = none := by
  obtain noInput | ⟨single, noOutput⟩ := outside
  · exact if_pos noInput
  · exact ite_eq_left_iff.mpr fun _ => if_pos ⟨SighashKind.isSingle_iff.mpr single, noOutput⟩

theorem sighash_eq_missingDigest
    (outside : transaction.inputs.length ≤ index ∨
      kind.base = 3 ∧ transaction.outputs.length ≤ index) :
    transaction.sighash index script kind = missingDigest := by
  rw [sighash, sighashPreimage?_eq_none outside]

theorem sighashPreimage?_eq_some (inside : index < transaction.inputs.length)
    (matched : kind.base = 3 → index < transaction.outputs.length) :
    transaction.sighashPreimage? index script kind =
      some ((transaction.covered index script kind).encodeWithoutWitness ++
        Bytes.littleEndian 4 kind.bits.toNat) := by
  have paired : ¬(kind.isSingle = true ∧ transaction.outputs.length ≤ index) := by
    intro ⟨single, outside⟩
    exact absurd (matched (SighashKind.isSingle_iff.mp single)) (Nat.not_lt.mpr outside)
  rw [sighashPreimage?, if_neg (Nat.not_le.mpr inside), if_neg paired]

theorem sighashPreimage?_eq_message (inside : index < transaction.inputs.length)
    (matched : kind.base = 3 → index < transaction.outputs.length) :
    transaction.sighashPreimage? index script kind =
      some (transaction.message index script kind inside matched) := by
  rw [sighashPreimage?_eq_some inside matched]
  unfold covered encodeWithoutWitness message
  rw [encodeInputs_coveredInputs inside, encodeOutputs_coveredOutputs matched]
  rfl

/-- An input that is not there, or whose output is not there where that output alone
is covered, has the digest one. Every other digest is that of the message; it can be
read off the transaction, or written for the copy whose edits all succeed. Witnesses
do not enter. -/
theorem sighash_eq_doubleSha256_message (transaction : Transaction) (index : Nat) (script : Bytes)
    (kind : SighashKind) :
    (transaction.inputs.length ≤ index ∨ kind.base = 3 ∧ transaction.outputs.length ≤ index →
      transaction.sighashPreimage? index script kind = none ∧
        (transaction.sighash index script kind).bytes = List.replicate 31 0 ++ [1]) ∧
    (∀ (inside : index < transaction.inputs.length)
        (matched : kind.base = 3 → index < transaction.outputs.length),
      transaction.editedCopy? index script kind = some (transaction.covered index script kind) ∧
        transaction.sighashPreimage? index script kind =
          some (transaction.message index script kind inside matched) ∧
        transaction.sighash index script kind =
          doubleSha256 (transaction.message index script kind inside matched)) ∧
    ∀ witnesses : Nat → Witness,
      (transaction.withWitnesses witnesses).sighashPreimage? index script kind =
        transaction.sighashPreimage? index script kind := by
  refine ⟨fun outside => ?missing, fun inside matched => ?found, sighashPreimage?_withWitnesses⟩
  case missing =>
    exact ⟨sighashPreimage?_eq_none outside,
      congrArg Bytes32.bytes (sighash_eq_missingDigest outside)⟩
  case found =>
    have preimage : transaction.sighashPreimage? index script kind =
        some (transaction.message index script kind inside matched) :=
      sighashPreimage?_eq_message inside matched
    refine ⟨editedCopy?_eq inside matched, preimage, ?_⟩
    rw [sighash, preimage]

def uneven : Transaction where
  version := 2
  inputs := [0, 1, 2].map fun index => ⟨⟨Bytes32.zero, index⟩, [], 7, [[1]]⟩
  outputs := [⟨5, []⟩, ⟨6, [0x51]⟩]
  lockTime := 0

/-- The third input has no output of its own. The second one, signed alone, spends a
script without its separators and pays the second output behind one blank. -/
theorem sighash_eq_doubleSha256_message_uneven :
    (uneven.sighash 2 [] ⟨3⟩).bytes = List.replicate 31 0 ++ [1] ∧
    uneven.sighash 1 [0x51, 0xab] ⟨0x83⟩ = doubleSha256 (
      [2, 0, 0, 0] ++
      ([1] ++ List.replicate 32 0 ++ [1, 0, 0, 0] ++ [1, 0x51] ++ [7, 0, 0, 0]) ++
      ([2] ++ List.replicate 8 0xff ++ [0] ++ [6, 0, 0, 0, 0, 0, 0, 0] ++ [1, 0x51]) ++
      [0, 0, 0, 0] ++ [0x83, 0, 0, 0]) := by
  refine ⟨((sighash_eq_doubleSha256_message uneven 2 [] ⟨3⟩).1 (by decide)).2, ?_⟩
  have found := (sighash_eq_doubleSha256_message uneven 1 [0x51, 0xab] ⟨0x83⟩).2.1
    (by decide) fun _ => by decide
  rw [found.2.2]
  exact congrArg doubleSha256 (by decide +kernel)

end BitcoinSigning.Transaction
