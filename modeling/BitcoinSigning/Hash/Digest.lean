import BitcoinSigning.Hash.Sha256
/-!
The digests that signing uses: SHA-256 applied twice, tagged hashes that keep
the purposes of a digest apart, and the keyed digest HMAC.
-/

namespace BitcoinSigning

def doubleSha256 (message : Bytes) : Bytes32 :=
  Sha256.hash (Sha256.hash message).bytes

def runningDoubleSha256 (pieces : List Bytes) : List Bytes32 :=
  (pieces.foldl (fun (hasher, digests) piece =>
    let next := hasher.write piece
    (next, Sha256.hash next.digest.bytes :: digests)) (Sha256.Hasher.empty, [])).2.reverse

/-- A digest that starts from the tag's own digest, written twice. -/
def taggedHash (tag : String) (message : Bytes) : Bytes32 :=
  let tagDigest := (Sha256.hash tag.toUTF8.toList).bytes
  Sha256.hash (tagDigest ++ tagDigest ++ message)

inductive HashTag
  | auxiliaryRandomness
  | schnorrNonce
  | schnorrChallenge
  | taprootTweak
  | taprootLeaf
  | taprootBranch
  deriving DecidableEq

namespace HashTag

def text : HashTag → String
  | auxiliaryRandomness => "BIP0340/aux"
  | schnorrNonce => "BIP0340/nonce"
  | schnorrChallenge => "BIP0340/challenge"
  | taprootTweak => "TapTweak"
  | taprootLeaf => "TapLeaf"
  | taprootBranch => "TapBranch"

def hash (tag : HashTag) (message : Bytes) : Bytes32 :=
  taggedHash tag.text message

end HashTag

/-- HMAC-SHA-256 under a key of 32 bytes, which zeros extend to a block. -/
def hmacSha256 (key : Bytes32) (message : Bytes) : Bytes32 :=
  let block := key.bytes ++ List.replicate 32 0
  let inner := Sha256.hash (block.map (· ^^^ 0x36) ++ message)
  Sha256.hash (block.map (· ^^^ 0x5c) ++ inner.bytes)

end BitcoinSigning
