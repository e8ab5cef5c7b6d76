import BitcoinSigning.Proofs.Transaction.RoundTrip
import Mathlib.Data.List.Forall2
/-!
What the identifiers of a transaction are digests of. The bytes without witnesses are the same
for transactions that agree in all else, and for no others. The bytes with witnesses are the same
for no two transactions that have an input, also where one is written with the marker and the
other is not.
-/

namespace BitcoinSigning

structure Input.SameBody (a b : Input) : Prop where
  outPoint : a.outPoint = b.outPoint
  script : a.script = b.script
  sequence : a.sequence = b.sequence

theorem Input.sameBody_iff {a b : Input} : a.SameBody b ↔ a.withoutWitness = b.withoutWitness := by
  constructor
  · intro same
    rw [withoutWitness, withoutWitness, same.outPoint, same.script, same.sequence]
  · intro same
    simp only [withoutWitness, mk.injEq, and_true] at same
    exact ⟨same.1, same.2.1, same.2.2⟩

namespace Transaction

variable {a b : Transaction}

/-- The transactions agree in all but the witnesses of their inputs. -/
structure SameBody (a b : Transaction) : Prop where
  version : a.version = b.version
  inputs : List.Forall₂ Input.SameBody a.inputs b.inputs
  outputs : a.outputs = b.outputs
  lockTime : a.lockTime = b.lockTime

theorem sameBody_iff : a.SameBody b ↔ a.withoutWitnesses = b.withoutWitnesses := by
  have each : Input.SameBody = fun a b => a.withoutWitness = b.withoutWitness := by
    funext a b
    exact propext Input.sameBody_iff
  have inputs : List.Forall₂ Input.SameBody a.inputs b.inputs ↔
      a.inputs.map Input.withoutWitness = b.inputs.map Input.withoutWitness := by
    rw [each, ← List.forall₂_eq_eq_eq, List.forall₂_map_left_iff, List.forall₂_map_right_iff]
  constructor
  · intro same
    rw [withoutWitnesses, withoutWitnesses, same.version, inputs.mp same.inputs, same.outputs,
      same.lockTime]
  · intro same
    simp only [withoutWitnesses, mk.injEq] at same
    exact ⟨same.1, inputs.mpr same.2.1, same.2.2.1, same.2.2.2⟩

theorem encodeWithWitness_ne_self (transaction : Transaction) :
    transaction.encodeWithWitness ≠ transaction.encodeWithoutWitness := by
  intro same
  have lengths := congrArg List.length same
  rw [length_encodeWithWitness, length_encodeWithoutWitness, sizeWithWitness] at lengths
  omega

theorem encode_eq_encodeWithoutWitness_iff (transaction : Transaction) :
    transaction.encode = transaction.encodeWithoutWitness ↔
      ∀ input ∈ transaction.inputs, input.witness = [] := by
  rw [← hasWitness_eq_false_iff, encode]
  cases transaction.hasWitness with
  | false => exact iff_of_true (if_neg Bool.false_ne_true) rfl
  | true => exact iff_of_false transaction.encodeWithWitness_ne_self Bool.false_ne_true.symm

theorem fitsForm_hasWitness {transaction : Transaction} (nonempty : transaction.inputs ≠ []) :
    transaction.FitsForm transaction.hasWitness :=
  fun bare => ⟨nonempty, hasWitness_eq_false_iff.mp bare⟩

theorem encode_eq_iff (fitsA : a.Fits) (fitsB : b.Fits) (nonemptyA : a.inputs ≠ [])
    (nonemptyB : b.inputs ≠ []) : a.encode = b.encode ↔ a = b :=
  ⟨eq_of_encode_eq_encodeAs fitsA fitsB nonemptyA (fitsForm_hasWitness nonemptyB),
    congrArg encode⟩

/-- The bytes under the first identifier tell all but the witnesses, and those under the second
tell everything, as long as there is an input. They are the same bytes exactly if there is no
witness, and then so are the identifiers. -/
theorem identified_bytes_unambiguous :
    (∀ a b : Transaction, a.BodyFits → b.BodyFits →
      (a.encodeWithoutWitness = b.encodeWithoutWitness ↔ a.SameBody b)) ∧
    (∀ transaction : Transaction,
      (transaction.encode = transaction.encodeWithoutWitness ↔
        ∀ input ∈ transaction.inputs, input.witness = []) ∧
      ((∀ input ∈ transaction.inputs, input.witness = []) →
        transaction.id = transaction.witnessId)) ∧
    ∀ a b : Transaction, a.Fits → b.Fits → a.inputs ≠ [] → b.inputs ≠ [] →
      (a.encode = b.encode ↔ a = b) := by
  refine ⟨?bodies, ?forms, fun a b => encode_eq_iff⟩
  case bodies =>
    intro a b fitsA fitsB
    rw [encodeWithoutWitness_eq_iff fitsA fitsB, sameBody_iff]
  case forms =>
    intro transaction
    have forms := transaction.encode_eq_encodeWithoutWitness_iff
    refine ⟨forms, fun bare => ?_⟩
    rw [id, witnessId, forms.mpr bare]

def unlockedOnce : Transaction where
  version := 2
  inputs := [⟨⟨Bytes32.zero, 0⟩, [], 0xffffffff, [[], [0x51]]⟩, ⟨⟨Bytes32.zero, 1⟩, [0x51], 0, []⟩]
  outputs := [⟨1, [0x51]⟩]
  lockTime := 7

theorem identified_bytes_unambiguous_unlockedOnce :
    unlockedOnce.Fits ∧ unlockedOnce.withoutWitnesses.Fits ∧
      unlockedOnce.encodeWithoutWitness = unlockedOnce.withoutWitnesses.encodeWithoutWitness ∧
      unlockedOnce.encode ≠ unlockedOnce.withoutWitnesses.encode ∧
      unlockedOnce.withoutWitnesses.id = unlockedOnce.withoutWitnesses.witnessId := by
  obtain ⟨bodies, forms, wholes⟩ := identified_bytes_unambiguous
  have fits : unlockedOnce.Fits :=
    ⟨⟨by decide, by decide, by decide, by decide⟩, by decide⟩
  have bareFits : unlockedOnce.withoutWitnesses.Fits :=
    ⟨⟨by decide, by decide, by decide, by decide⟩, by decide⟩
  have same : unlockedOnce.SameBody unlockedOnce.withoutWitnesses := sameBody_iff.mpr rfl
  have different : unlockedOnce ≠ unlockedOnce.withoutWitnesses := by decide
  refine ⟨fits, bareFits, (bodies _ _ fits.toBodyFits bareFits.toBodyFits).mpr same, ?_, ?_⟩
  · exact mt (wholes _ _ fits bareFits (List.cons_ne_nil _ _) (List.cons_ne_nil _ _)).mp different
  · exact (forms _).2 (by decide)

/-- Without inputs, an output can take the place of an input and its witness. -/
example : encode ⟨1, [], [⟨1, List.replicate 34 0 ++ [1, 0]⟩], 7⟩ =
    encode ⟨1, [⟨⟨⟨List.replicate 7 0 ++ [36] ++ List.replicate 24 0, rfl⟩, 0⟩, [], 0, [[]]⟩],
      [], 7⟩ := by
  rfl

end Transaction

end BitcoinSigning
