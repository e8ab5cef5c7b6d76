import BitcoinSigning.Authorization.Request
import BitcoinSigning.Script.Build
import BitcoinSigning.Sighash.Legacy
/-!
Work on a transaction, step by step: editing it, signing its inputs and
verifying their signatures. A step that fails changes nothing.
-/

namespace BitcoinSigning

inductive Step
  | setVersion (version : Int32)
  | setLockTime (lockTime : UInt32)
  | setScript (index : Nat) (script : Bytes)
  | setSequence (index : Nat) (sequence : UInt32)
  | setWitness (index : Nat) (witness : Witness)
  | setOutput (index : Nat) (output : Output)
  | addInput (input : Input)
  | addOutput (output : Output)
  | removeInput (index : Nat)
  | removeOutput (index : Nat)
  | reload
  | sighash (index : Nat) (kind : SighashKind) (script : Bytes)
  | witnessSighash (index : Nat) (kind : SighashKind) (script : Bytes) (value : UInt64)
  | sign (index : Nat) (key : Bytes) (kind : SighashKind) (script : Bytes)
  | signWitness (index : Nat) (key : Bytes) (kind : SighashKind) (script : Bytes) (value : UInt64)
  | verify (index : Nat) (script : Bytes)
  | verifyWitness (index : Nat) (script : Bytes) (value : UInt64)
  deriving DecidableEq

inductive Outcome
  | done
  | digest (digest : Bytes32)
  | bytes (bytes : Bytes)
  | verdict (valid : Bool)
  deriving DecidableEq

inductive StepError
  | missing (index : Nat)
  | signing (error : SigningError)
  deriving DecidableEq

namespace Script

/-- The data of a script's first instruction, taken as a direct push, and what
stands behind the opcode of the second. -/
def signatureAndKey (script : Bytes) : Bytes × Bytes :=
  let length := (script.headD 0).toNat
  let signature := if length < script.length then (script.drop 1).take length else []
  (signature, script.drop (2 + length))

end Script

namespace Transaction

def input (transaction : Transaction) (index : Nat) : Except StepError Input :=
  match transaction.inputs[index]? with
  | some input => .ok input
  | none => .error (.missing index)

def modifyInput (transaction : Transaction) (index : Nat) (change : Input → Input) :
    Except StepError Transaction :=
  if index < transaction.inputs.length then
    .ok { transaction with inputs := transaction.inputs.modify index change }
  else .error (.missing index)

def modifyOutput (transaction : Transaction) (index : Nat) (change : Output → Output) :
    Except StepError Transaction :=
  if index < transaction.outputs.length then
    .ok { transaction with outputs := transaction.outputs.modify index change }
  else .error (.missing index)

def removeInput (transaction : Transaction) (index : Nat) : Except StepError Transaction :=
  if index < transaction.inputs.length then
    .ok { transaction with inputs := transaction.inputs.eraseIdx index }
  else .error (.missing index)

def removeOutput (transaction : Transaction) (index : Nat) : Except StepError Transaction :=
  if index < transaction.outputs.length then
    .ok { transaction with outputs := transaction.outputs.eraseIdx index }
  else .error (.missing index)

def sign (transaction : Transaction) (index : Nat) (keyBytes : Bytes) (kind : SighashKind)
    (script : Bytes) : Except StepError (Transaction × Bytes) := do
  let key ← (PrivateKey.ofBytes keyBytes).mapError fun e => .signing (.curve e)
  let digest := transaction.sighash index script kind
  let signature ← (signSighash digest key kind).mapError .signing
  let publicKey ← key.publicKey.mapError fun e => .signing (.curve e)
  let unlocking := Script.push signature ++ Script.push (publicKey.encode .compressed)
  let signed ← transaction.modifyInput index fun input => { input with script := unlocking }
  return (signed, unlocking)

def signWitness (transaction : Transaction) (index : Nat) (keyBytes : Bytes) (kind : SighashKind)
    (script : Bytes) (value : UInt64) : Except StepError (Transaction × Bytes) := do
  let key ← (PrivateKey.ofBytes keyBytes).mapError fun e => .signing (.curve e)
  let digest ← (transaction.witnessSighash index script kind value).mapError fun e =>
    .signing (.sighash e)
  let signature ← (signSighash digest key kind).mapError .signing
  let publicKey ← key.publicKey.mapError fun e => .signing (.curve e)
  let witness := [signature, publicKey.encode .compressed]
  let signed ← transaction.modifyInput index fun input => { input with witness }
  return (signed, signature)

def verify (transaction : Transaction) (index : Nat) (script : Bytes) : Except StepError Bool := do
  let input ← transaction.input index
  let (signature, key) := Script.signatureAndKey input.script
  let (signature, bits) ← (Der.decode signature).mapError fun e => .signing (.der e)
  return signature.verifyEncoded key (transaction.sighash index script ⟨bits⟩)

def verifyWitness (transaction : Transaction) (index : Nat) (script : Bytes) (value : UInt64) :
    Except StepError Bool := do
  let input ← transaction.input index
  let (signature, bits) ← (Der.decode (input.witness.getD 0 [])).mapError fun e =>
    .signing (.der e)
  let digest ← (transaction.witnessSighash index script ⟨bits⟩ value).mapError fun e =>
    .signing (.sighash e)
  return signature.verifyEncoded (input.witness.getD 1 []) digest

end Transaction

namespace Step

def apply (transaction : Transaction) : Step → Except StepError (Transaction × Outcome)
  | setVersion version => .ok ({ transaction with version }, .done)
  | setLockTime lockTime => .ok ({ transaction with lockTime }, .done)
  | setScript index script => do
    return (← transaction.modifyInput index fun input => { input with script }, .done)
  | setSequence index sequence => do
    return (← transaction.modifyInput index fun input => { input with sequence }, .done)
  | setWitness index witness => do
    return (← transaction.modifyInput index fun input => { input with witness }, .done)
  | setOutput index output => do
    return (← transaction.modifyOutput index fun _ => output, .done)
  | addInput input => .ok ({ transaction with inputs := transaction.inputs ++ [input] }, .done)
  | addOutput output =>
    .ok ({ transaction with outputs := transaction.outputs ++ [output] }, .done)
  | removeInput index => do return (← transaction.removeInput index, .done)
  | removeOutput index => do return (← transaction.removeOutput index, .done)
  | reload => do
    let reloaded ← (Transaction.ofBytes transaction.encode).mapError fun e => .signing (.decode e)
    return (reloaded, .done)
  | sighash index kind script => .ok (transaction, .digest (transaction.sighash index script kind))
  | witnessSighash index kind script value => do
    let digest ← (transaction.witnessSighash index script kind value).mapError fun e =>
      .signing (.sighash e)
    return (transaction, .digest digest)
  | sign index key kind script => do
    let (signed, unlocking) ← transaction.sign index key kind script
    return (signed, .bytes unlocking)
  | signWitness index key kind script value => do
    let (signed, signature) ← transaction.signWitness index key kind script value
    return (signed, .bytes signature)
  | verify index script => do return (transaction, .verdict (← transaction.verify index script))
  | verifyWitness index script value => do
    return (transaction, .verdict (← transaction.verifyWitness index script value))

/-- The step's answer, and the transaction after it: the same one, if it failed. -/
def perform (transaction : Transaction) (step : Step) : Except StepError Outcome × Transaction :=
  match step.apply transaction with
  | .ok (next, outcome) => (.ok outcome, next)
  | .error e => (.error e, transaction)

def run (transaction : Transaction) : List Step → List (Except StepError Outcome × Transaction)
  | [] => []
  | step :: rest =>
    let result := step.perform transaction
    result :: run result.2 rest

end Step

end BitcoinSigning
