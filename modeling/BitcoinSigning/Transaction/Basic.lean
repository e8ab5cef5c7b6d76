import BitcoinSigning.Bytes
/-!
Transactions: what they spend, what they pay, and the witnesses that permit it.
-/

namespace BitcoinSigning

structure OutPoint where
  hash : Bytes32
  index : UInt32
  deriving DecidableEq

def OutPoint.toText (outPoint : OutPoint) : String :=
  s!"{outPoint.hash.reversed.toHex}:{outPoint.index.toNat}"

abbrev Witness := List Bytes

structure Input where
  outPoint : OutPoint
  script : Bytes
  sequence : UInt32
  witness : Witness
  deriving DecidableEq

structure Output where
  value : UInt64
  script : Bytes
  deriving DecidableEq

structure Transaction where
  version : Int32
  inputs : List Input
  outputs : List Output
  lockTime : UInt32
  deriving DecidableEq

namespace Transaction

def hasWitness (transaction : Transaction) : Bool :=
  transaction.inputs.any fun input => !input.witness.isEmpty

end Transaction

end BitcoinSigning
