import BitcoinSigning.Encoding.Source
/-!
Counts and lengths in one, three, five or nine bytes, always in the fewest that
hold the number, and byte strings behind their length.
-/

namespace BitcoinSigning

namespace CompactSize

def encode (n : UInt64) : Bytes :=
  if n < 0xfd then [n.toUInt8]
  else if n < 0x10000 then 0xfd :: Bytes.littleEndian 2 n.toNat
  else if n < 0x100000000 then 0xfe :: Bytes.littleEndian 4 n.toNat
  else 0xff :: Bytes.littleEndian 8 n.toNat

def encodedSize (n : UInt64) : Nat :=
  if n < 0xfd then 1
  else if n < 0x10000 then 3
  else if n < 0x100000000 then 5
  else 9

/-- A number of this width, that no shorter form could have held. -/
def decodeWide (width : Nat) (least : UInt64) : Decoder UInt64 := do
  let n := (← Decoder.unsigned width).toUInt64
  if n < least then throw .nonCanonicalCompactSize
  return n

def decodeAfter (first : UInt8) : Decoder UInt64 :=
  if first = 0xfd then decodeWide 2 0xfd
  else if first = 0xfe then decodeWide 4 0x10000
  else if first = 0xff then decodeWide 8 0x100000000
  else pure first.toUInt64

def decode : Decoder UInt64 := do
  decodeAfter (← Decoder.byte)

theorem length_encode (n : UInt64) : (encode n).length = encodedSize n := by
  rw [encode, encodedSize]
  split
  · rfl
  · split
    · rw [List.length_cons, Bytes.length_littleEndian]
    · split <;> rw [List.length_cons, Bytes.length_littleEndian]

end CompactSize

namespace SizedBytes

def encode (bytes : Bytes) : Bytes :=
  CompactSize.encode bytes.length.toUInt64 ++ bytes

def encodedSize (bytes : Bytes) : Nat :=
  CompactSize.encodedSize bytes.length.toUInt64 + bytes.length

/-- Byte strings longer than the limit are refused before any of them is read. -/
def decode (limit : UInt64) : Decoder Bytes := do
  let length ← CompactSize.decode
  if limit < length then throw (.scriptTooLarge length)
  Decoder.take length.toNat

theorem length_encode (bytes : Bytes) : (encode bytes).length = encodedSize bytes := by
  rw [encode, encodedSize, List.length_append, CompactSize.length_encode]

end SizedBytes

end BitcoinSigning
