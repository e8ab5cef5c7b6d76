import BitcoinSigning.Script.Instruction
/-!
Scripts put together from opcodes and data.
-/

namespace BitcoinSigning.Script

/-- The instruction that pushes the data, in the shortest of its forms. -/
def push (data : Bytes) : Bytes :=
  let length := data.length
  if length < Opcode.pushData1.toNat then length.toUInt8 :: data
  else if length < 0x100 then Opcode.pushData1 :: (Bytes.littleEndian 1 length ++ data)
  else if length < 0x10000 then Opcode.pushData2 :: (Bytes.littleEndian 2 length ++ data)
  else Opcode.pushData4 :: (Bytes.littleEndian 4 length ++ data)

inductive Element
  | opcode (code : UInt8)
  | data (bytes : Bytes)
  deriving DecidableEq

def Element.bytes : Element → Bytes
  | .opcode code => [code]
  | .data bytes => push bytes

def build (elements : List Element) : Bytes :=
  elements.flatMap Element.bytes

def payToKeyHash (keyHash : Bytes) : Bytes :=
  build [.opcode Opcode.dup, .opcode Opcode.hash160, .data keyHash,
    .opcode Opcode.equalVerify, .opcode Opcode.checkSig]

end BitcoinSigning.Script
