import BitcoinSigning.Bytes
/-!
The boundaries of a script's instructions. Scripts are never executed here; what
is needed of them is where each instruction ends, and to take all instructions
of one opcode out.
-/

namespace BitcoinSigning

namespace Opcode

def pushData1 : UInt8 := 0x4c
def pushData2 : UInt8 := 0x4d
def pushData4 : UInt8 := 0x4e
def dup : UInt8 := 0x76
def equalVerify : UInt8 := 0x88
def hash160 : UInt8 := 0xa9
def codeSeparator : UInt8 := 0xab
def checkSig : UInt8 := 0xac

end Opcode

/-- An opcode and the bytes that belong to it: the data that it pushes, and the
length of the data where the opcode does not tell it. -/
structure Instruction where
  opcode : UInt8
  operand : Bytes
  deriving DecidableEq

namespace Instruction

def bytes (instruction : Instruction) : Bytes :=
  instruction.opcode :: instruction.operand

def isPush (instruction : Instruction) : Bool :=
  instruction.opcode ≤ Opcode.pushData4

/-- How many bytes after the opcode hold the length of the data. -/
def lengthWidth (opcode : UInt8) : Nat :=
  if opcode = Opcode.pushData1 then 1
  else if opcode = Opcode.pushData2 then 2
  else if opcode = Opcode.pushData4 then 4
  else 0

def operandLength (opcode : UInt8) (following : Bytes) : Nat :=
  if opcode < Opcode.pushData1 then opcode.toNat
  else
    let width := lengthWidth opcode
    width + Bytes.ofLittleEndian (following.take width)

end Instruction

namespace Script

/-- The first instruction and what follows it, unless the script is too short
for what its opcode announces. -/
def next : Bytes → Option (Instruction × Bytes)
  | [] => none
  | opcode :: following =>
    let length := Instruction.operandLength opcode following
    let operand := following.take length
    if operand.length < length then none
    else some (⟨opcode, operand⟩, following.drop length)

theorem length_lt_of_next {script rest : Bytes} {instruction : Instruction}
    (found : next script = some (instruction, rest)) : rest.length < script.length := by
  cases script with
  | nil => exact nomatch found
  | cons opcode following =>
    simp only [next] at found
    split at found
    · exact nomatch found
    · obtain ⟨_, rfl⟩ := Prod.mk.inj (Option.some.inj found)
      rw [List.length_drop, List.length_cons]
      omega

/-- A script as whole instructions, and the bytes of a last push that is cut
short. -/
structure Parsed where
  instructions : List Instruction
  rest : Bytes

def parseOnto (reversed : List Instruction) (script : Bytes) : Parsed :=
  match _ : next script with
  | none => ⟨reversed.reverse, script⟩
  | some (instruction, rest) => parseOnto (instruction :: reversed) rest
termination_by script.length
decreasing_by exact length_lt_of_next (by assumption)

def parse (script : Bytes) : Parsed := parseOnto [] script

private theorem parseOnto_of_none {script : Bytes} (reversed : List Instruction)
    (last : next script = none) : parseOnto reversed script = ⟨reversed.reverse, script⟩ := by
  rw [parseOnto]
  split
  · rfl
  · rename_i found
    exact nomatch last.symm.trans found

private theorem parseOnto_of_some {script rest : Bytes} {instruction : Instruction}
    (reversed : List Instruction) (found : next script = some (instruction, rest)) :
    parseOnto reversed script = parseOnto (instruction :: reversed) rest := by
  rw [parseOnto]
  split
  · rename_i last
    exact nomatch found.symm.trans last
  · rename_i found'
    obtain ⟨rfl, rfl⟩ := Prod.mk.inj (Option.some.inj (found.symm.trans found'))
    rfl

private theorem parseOnto_eq (reversed : List Instruction) (script : Bytes) :
    parseOnto reversed script =
      ⟨reversed.reverse ++ (parse script).instructions, (parse script).rest⟩ := by
  rw [parse]
  match found : next script with
  | none =>
    rw [parseOnto_of_none reversed found, parseOnto_of_none [] found, List.reverse_nil,
      List.append_nil]
  | some (instruction, rest) =>
    rw [parseOnto_of_some reversed found, parseOnto_of_some [] found, parseOnto_eq _ rest,
      parseOnto_eq [instruction] rest, List.reverse_cons, List.append_assoc]
    rfl
termination_by script.length
decreasing_by all_goals exact length_lt_of_next found

theorem parse_of_none {script : Bytes} (last : next script = none) :
    parse script = ⟨[], script⟩ :=
  parseOnto_of_none [] last

theorem parse_of_some {script rest : Bytes} {instruction : Instruction}
    (found : next script = some (instruction, rest)) :
    parse script = ⟨instruction :: (parse rest).instructions, (parse rest).rest⟩ := by
  rw [parse, parseOnto_of_some [] found, parseOnto_eq]
  rfl

def Parsed.bytes (parsed : Parsed) : Bytes :=
  parsed.instructions.flatMap Instruction.bytes ++ parsed.rest

/-- The script without the instructions of this opcode. Pushes always stay, with
their data, and so does a last push that is cut short. -/
def strip (opcode : UInt8) (script : Bytes) : Bytes :=
  let parsed := parse script
  Parsed.bytes
    ⟨parsed.instructions.filter fun instruction =>
      instruction.isPush || instruction.opcode != opcode, parsed.rest⟩

end Script

end BitcoinSigning
