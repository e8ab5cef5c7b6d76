import BitcoinSigning.Sighash.Legacy
import BitcoinSigning.Sighash.Witness
/-!
Neither signature hash depends on what unlocks the inputs: their scripts and
witnesses may change between the time when a digest is signed and the time when
its signature is verified.
-/

namespace BitcoinSigning

def Input.locked (input : Input) : Input := { input with script := [], witness := [] }

namespace Transaction

/-- The transaction with nothing that unlocks its inputs. -/
def locked (transaction : Transaction) : Transaction :=
  { transaction with inputs := transaction.inputs.map Input.locked }

variable (transaction : Transaction) (index : Nat) (script : Bytes) (kind : SighashKind)

/-! The legacy digest. -/

theorem encodeInputs_dropWitness (inputs : List Input) :
    encodeInputs (inputs.map fun input => { input with witness := [] }) = encodeInputs inputs := by
  rw [encodeInputs, encodeInputs, List.length_map, List.flatMap_map]
  rfl

theorem coveredInputs_locked :
    transaction.locked.coveredInputs index script kind =
      (transaction.coveredInputs index script kind).map
        fun input => { input with witness := [] } := by
  unfold coveredInputs locked
  cases kind.anyoneCanPay with
  | true =>
    simp only [if_true, List.getElem?_map, List.map_map]
    cases transaction.inputs[index]? with
    | none => rfl
    | some input => rfl
  | false =>
    simp only [Bool.false_eq_true, if_false]
    apply List.ext_getElem?
    intro position
    simp only [List.getElem?_mapIdx, List.getElem?_map]
    cases transaction.inputs[position]? with
    | none => rfl
    | some input =>
      by_cases here : position = index
      · simp only [Option.map_some, if_pos here, Input.locked]
      · simp only [Option.map_some, if_neg here, Input.locked]

theorem sighashPreimage?_locked :
    transaction.locked.sighashPreimage? index script kind =
      transaction.sighashPreimage? index script kind := by
  have inputs : transaction.locked.inputs.length = transaction.inputs.length := List.length_map _
  unfold sighashPreimage? covered encodeWithoutWitness
  rw [coveredInputs_locked, inputs]
  simp only [encodeInputs_dropWitness]
  rfl

theorem sighash_locked :
    transaction.locked.sighash index script kind = transaction.sighash index script kind := by
  rw [sighash, sighashPreimage?_locked, sighash]

/-! The digest of inputs with a witness. -/

theorem witnessPreimage_locked (input : Input) (value : UInt64) :
    transaction.locked.witnessPreimage index input.locked script kind value =
      transaction.witnessPreimage index input script kind value := by
  have outPoints : transaction.locked.outPointsDigest = transaction.outPointsDigest := by
    rw [outPointsDigest, locked, List.flatMap_map]
    rfl
  have sequences : transaction.locked.sequencesDigest = transaction.sequencesDigest := by
    rw [sequencesDigest, locked, List.flatMap_map]
    rfl
  rw [witnessPreimage, outPoints, sequences]
  rfl

theorem witnessSighash_locked (value : UInt64) :
    transaction.locked.witnessSighash index script kind value =
      transaction.witnessSighash index script kind value := by
  have inputs : transaction.locked.inputs.length = transaction.inputs.length := List.length_map _
  have lookup : transaction.locked.inputs[index]? = transaction.inputs[index]?.map Input.locked :=
    List.getElem?_map ..
  rw [witnessSighash, lookup, inputs, witnessSighash]
  cases transaction.inputs[index]? with
  | none => rfl
  | some input =>
    exact congrArg (fun preimage => Except.ok (doubleSha256 preimage))
      (transaction.witnessPreimage_locked index script kind input value)

end Transaction

end BitcoinSigning
