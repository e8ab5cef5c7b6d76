import BitcoinSigning.Encoding.CompactSize
import BitcoinSigning.Hash.Digest
/-!
Trees of scripts, and the digest by which a key commits to one.
-/

namespace BitcoinSigning

/-- A subtree may be known by its digest alone. -/
inductive TapTree
  | leaf (version : UInt8) (script : Bytes)
  | pruned (hash : Bytes32)
  | branch (left right : TapTree)
  deriving DecidableEq

namespace TapTree

def tapscriptVersion : UInt8 := 0xc0

def leafHash (version : UInt8) (script : Bytes) : Bytes32 :=
  HashTag.taprootLeaf.hash (version :: SizedBytes.encode script)

/-- The smaller digest comes first, so the two sides may be exchanged. -/
def branchHash (a b : Bytes32) : Bytes32 :=
  let (small, large) := if b.bytes < a.bytes then (b, a) else (a, b)
  HashTag.taprootBranch.hash (small.bytes ++ large.bytes)

def hash : TapTree → Bytes32
  | leaf version script => leafHash version script
  | pruned hash => hash
  | branch left right => branchHash left.hash right.hash

def isLeaf : TapTree → Bool
  | leaf _ _ => true
  | _ => false

/-- Neighbours joined two by two; the last of an odd number stays as it is. -/
def joinNeighbours : List TapTree → List TapTree
  | left :: right :: rest => branch left right :: joinNeighbours rest
  | nodes => nodes

theorem length_joinNeighbours_le : (nodes : List TapTree) →
    2 * (joinNeighbours nodes).length ≤ nodes.length + 1
  | [] => by decide
  | [_] => by simp only [joinNeighbours, List.length_cons, List.length_nil]; omega
  | _ :: _ :: rest => by
    have shorter := length_joinNeighbours_le rest
    simp only [joinNeighbours, List.length_cons]
    omega

def joinAll : List TapTree → Option TapTree
  | [] => none
  | [root] => some root
  | left :: right :: rest => joinAll (branch left right :: joinNeighbours rest)
termination_by nodes => nodes.length
decreasing_by
  have shorter := length_joinNeighbours_le rest
  simp only [List.length_cons]
  omega

def ofScripts (scripts : List Bytes) : Option TapTree :=
  joinAll (scripts.map (leaf tapscriptVersion))

end TapTree

end BitcoinSigning
