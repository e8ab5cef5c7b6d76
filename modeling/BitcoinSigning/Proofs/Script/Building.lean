import BitcoinSigning.Proofs.Script.Removal
import BitcoinSigning.Script.Build
import Mathlib.Data.List.Forall2
/-!
Scripts that are put together fall into the parts they were put together from. The header of
a push announces just the data that follows it, and among the headers that can announce it
the shortest is chosen; so a walk through the script finds one instruction for each part, and
to take an opcode out is to leave out its parts.
-/

namespace BitcoinSigning

attribute [local instance (high)] instPowNat

namespace Instruction

variable {opcode : UInt8} {pushed : Bytes} {instruction : Instruction}

def data (instruction : Instruction) : Bytes :=
  instruction.operand.drop (lengthWidth instruction.opcode)

def headerLength (instruction : Instruction) : Nat := 1 + lengthWidth instruction.opcode

/-- The data behind an opcode and as much of its length as the opcode has room for. -/
def headed (opcode : UInt8) (pushed : Bytes) : Instruction :=
  ⟨opcode, Bytes.littleEndian (lengthWidth opcode) pushed.length ++ pushed⟩

def pushOpcode (length : Nat) : UInt8 :=
  if length < 76 then length.toUInt8
  else if length < 0x100 then Opcode.pushData1
  else if length < 0x10000 then Opcode.pushData2
  else Opcode.pushData4

def pushing (pushed : Bytes) : Instruction := headed (pushOpcode pushed.length) pushed

theorem toUInt8_lt_pushData1 {length : Nat} (small : length < 76) :
    length.toUInt8 < Opcode.pushData1 ∧ length.toUInt8.toNat = length := by
  have byte : length.toUInt8.toNat = length := by
    rw [UInt8.toNat_ofNat']
    omega
  refine ⟨UInt8.lt_iff_toNat_lt.mpr ?_, byte⟩
  rw [byte]
  exact small

theorem pushOpcode_cases (length : Nat) :
    (length < 76 ∧ pushOpcode length = length.toUInt8) ∨
    (76 ≤ length ∧ length < 0x100 ∧ pushOpcode length = Opcode.pushData1) ∨
    (0x100 ≤ length ∧ length < 0x10000 ∧ pushOpcode length = Opcode.pushData2) ∨
    (0x10000 ≤ length ∧ pushOpcode length = Opcode.pushData4) := by
  unfold pushOpcode
  by_cases direct : length < 76
  · exact Or.inl ⟨direct, if_pos direct⟩
  rw [if_neg direct]
  by_cases one : length < 0x100
  · exact Or.inr (Or.inl ⟨Nat.not_lt.mp direct, one, if_pos one⟩)
  rw [if_neg one]
  by_cases two : length < 0x10000
  · exact Or.inr (Or.inr (Or.inl ⟨Nat.not_lt.mp one, two, if_pos two⟩))
  exact Or.inr (Or.inr (Or.inr ⟨Nat.not_lt.mp two, if_neg two⟩))

theorem data_headed (opcode : UInt8) (pushed : Bytes) : (headed opcode pushed).data = pushed :=
  List.drop_left' (Bytes.length_littleEndian _ _)

theorem complete_headed
    (announced : dataLength opcode (headed opcode pushed).operand = pushed.length) :
    (headed opcode pushed).Complete := by
  change (Bytes.littleEndian (lengthWidth opcode) pushed.length ++ pushed).length =
    operandLength opcode (headed opcode pushed).operand
  rw [operandLength_eq, announced, List.length_append, Bytes.length_littleEndian]

theorem dataLength_headed (wide : ¬opcode < Opcode.pushData1)
    (room : pushed.length < 256 ^ lengthWidth opcode) :
    dataLength opcode (headed opcode pushed).operand = pushed.length := by
  have field : (headed opcode pushed).operand.take (lengthWidth opcode) =
      Bytes.littleEndian (lengthWidth opcode) pushed.length :=
    List.take_left' (Bytes.length_littleEndian _ _)
  rw [dataLength, if_neg wide, field, Bytes.ofLittleEndian_littleEndian, Nat.mod_eq_of_lt room]

theorem isPush_pushing (pushed : Bytes) : (pushing pushed).isPush = true := by
  change decide (pushOpcode pushed.length ≤ Opcode.pushData4) = true
  rw [decide_eq_true_iff]
  rcases pushOpcode_cases pushed.length with ⟨small, form⟩ | ⟨-, -, form⟩ | ⟨-, -, form⟩ |
    ⟨-, form⟩ <;> rw [form]
  · exact UInt8.le_of_lt (UInt8.lt_trans (toUInt8_lt_pushData1 small).1 (by decide))
  all_goals decide

theorem complete_pushing (small : pushed.length < 0x100000000) : (pushing pushed).Complete := by
  apply complete_headed
  rcases pushOpcode_cases pushed.length with ⟨small, form⟩ | ⟨-, room, form⟩ | ⟨-, room, form⟩ |
    ⟨-, form⟩ <;> rw [form]
  · obtain ⟨less, byte⟩ := toUInt8_lt_pushData1 small
    rw [dataLength, if_pos less, byte]
  · exact dataLength_headed (by decide) room
  · exact dataLength_headed (by decide) room
  · exact dataLength_headed (by decide) small

theorem Complete.length_data (complete : instruction.Complete) :
    instruction.data.length = dataLength instruction.opcode instruction.operand := by
  rw [Complete, operandLength_eq] at complete
  rw [data, List.length_drop, complete, Nat.add_sub_cancel_left]

theorem dataLength_lt (opcode : UInt8) (following : Bytes) :
    dataLength opcode following < 76 ∨
      dataLength opcode following < 256 ^ lengthWidth opcode := by
  unfold dataLength
  by_cases direct : opcode < Opcode.pushData1
  · rw [if_pos direct]
    exact Or.inl (UInt8.lt_iff_toNat_lt.mp direct)
  · rw [if_neg direct]
    have bound := Bytes.ofLittleEndian_lt (following.take (lengthWidth opcode))
    exact Or.inr (Nat.lt_of_lt_of_le bound
      (Nat.pow_le_pow_right (by decide) (List.length_take_le _ _)))

theorem lengthWidth_cases (opcode : UInt8) :
    lengthWidth opcode = 0 ∨ lengthWidth opcode = 1 ∨ lengthWidth opcode = 2 ∨
      lengthWidth opcode = 4 := by
  unfold lengthWidth
  split
  · exact Or.inr (Or.inl rfl)
  split
  · exact Or.inr (Or.inr (Or.inl rfl))
  split
  · exact Or.inr (Or.inr (Or.inr rfl))
  · exact Or.inl rfl

theorem lengthWidth_pushOpcode_le {length : Nat}
    (announced : length < 76 ∨ length < 256 ^ lengthWidth opcode) :
    lengthWidth (pushOpcode length) ≤ lengthWidth opcode := by
  have widths := lengthWidth_cases opcode
  generalize lengthWidth opcode = width at *
  rcases pushOpcode_cases length with ⟨small, form⟩ | ⟨least, -, form⟩ | ⟨least, -, form⟩ |
    ⟨least, form⟩ <;> rw [form]
  · rw [lengthWidth_of_lt (toUInt8_lt_pushData1 small).1]
    exact Nat.zero_le _
  · change 1 ≤ width
    rcases widths with rfl | rfl | rfl | rfl <;> omega
  · change 2 ≤ width
    rcases widths with rfl | rfl | rfl | rfl <;> omega
  · change 4 ≤ width
    rcases widths with rfl | rfl | rfl | rfl <;> omega

theorem Complete.headerLength_pushing_le (complete : instruction.Complete) :
    (pushing instruction.data).headerLength ≤ instruction.headerLength := by
  apply Nat.add_le_add_left
  apply lengthWidth_pushOpcode_le
  rw [complete.length_data]
  exact dataLength_lt instruction.opcode instruction.operand

end Instruction

namespace Script

open Instruction

variable {opcode : UInt8} {elements : List Element} {element : Element}

theorem push_eq (pushed : Bytes) : push pushed = (pushing pushed).bytes := by
  have direct (small : pushed.length < 76) :
      push pushed = pushed.length.toUInt8 :: pushed := if_pos small
  have wide (large : ¬pushed.length < 76) : push pushed = _ := if_neg large
  unfold pushing
  rcases pushOpcode_cases pushed.length with ⟨small, form⟩ | ⟨least, room, form⟩ |
    ⟨least, room, form⟩ | ⟨least, form⟩ <;> rw [form]
  · rw [direct small, bytes, headed, lengthWidth_of_lt (toUInt8_lt_pushData1 small).1]
    rfl
  · rw [wide (by omega), if_pos room]
    rfl
  · rw [wide (by omega), if_neg (by omega), if_pos room]
    rfl
  · rw [wide (by omega), if_neg (by omega), if_neg (by omega)]
    rfl

def Element.Fits : Element → Prop
  | .opcode code => code = 0 ∨ Opcode.pushData4 < code
  | .data bytes => bytes.length < 0x100000000

instance : (element : Element) → Decidable element.Fits
  | .opcode code => inferInstanceAs (Decidable (code = 0 ∨ Opcode.pushData4 < code))
  | .data bytes => inferInstanceAs (Decidable (bytes.length < 0x100000000))

def Element.instruction : Element → Instruction
  | .opcode code => ⟨code, []⟩
  | .data bytes => pushing bytes

theorem Element.bytes_eq (element : Element) : element.bytes = element.instruction.bytes := by
  cases element with
  | opcode code => rfl
  | data bytes => exact push_eq bytes

theorem Element.complete_instruction (fits : element.Fits) : element.instruction.Complete := by
  cases element with
  | opcode code =>
    rcases fits with rfl | plain
    · decide
    · change 0 = operandLength code []
      rw [operandLength_eq, lengthWidth_of_gt plain, dataLength_of_gt plain]
  | data bytes => exact complete_pushing fits

theorem Element.stays_instruction (fits : element.Fits) (plain : Opcode.pushData4 < opcode) :
    element.instruction.stays opcode = decide (element ≠ .opcode opcode) := by
  cases element with
  | opcode code =>
    have complete : Complete ⟨code, []⟩ := complete_instruction fits
    rw [Element.instruction, complete.stays_eq plain]
    simp only [Instruction.bytes, ne_eq, List.cons.injEq, and_true, Element.opcode.injEq]
  | data bytes =>
    have push := isPush_pushing bytes
    rw [Element.instruction, stays, push, Bool.true_or]
    rfl

theorem build_eq (elements : List Element) :
    build elements = Parsed.bytes ⟨elements.map Element.instruction, []⟩ := by
  rw [build, Parsed.bytes, List.append_nil, List.flatMap_map]
  exact List.flatMap_congr fun element _ => element.bytes_eq

theorem parse_build (fit : ∀ element ∈ elements, element.Fits) :
    parse (build elements) = ⟨elements.map Element.instruction, []⟩ := by
  rw [build_eq]
  refine parse_bytes (fun instruction member => ?_) rfl
  obtain ⟨element, inside, rfl⟩ := List.mem_map.mp member
  exact Element.complete_instruction (fit element inside)

theorem strip_build (fit : ∀ element ∈ elements, element.Fits)
    (plain : Opcode.pushData4 < opcode) :
    strip opcode (build elements) = build (elements.filter (· ≠ .opcode opcode)) := by
  rw [strip_eq, parse_build fit, build_eq, List.filter_map]
  congr 3
  exact List.filter_congr fun element member =>
    Element.stays_instruction (fit element member) plain

/-- What a part becomes in a script: the opcode alone, or a push of the data, with a header
that is no longer than the one of any instruction that is found in a script and pushes the
same data. -/
inductive Element.Becomes : Element → Instruction → Prop
  | opcode {code : UInt8} {instruction : Instruction} (alone : instruction.bytes = [code]) :
    Becomes (.opcode code) instruction
  | data {bytes : Bytes} {instruction : Instruction} (push : instruction.isPush = true)
    (pushed : instruction.data = bytes)
    (least : ∀ limit script position other, script.length + 5 ≤ limit →
      Indexed.Finds limit script position other → other.data = bytes →
        instruction.headerLength ≤ other.headerLength) :
    Becomes (.data bytes) instruction

theorem Element.becomes_instruction (element : Element) : element.Becomes element.instruction := by
  cases element with
  | opcode code => exact .opcode rfl
  | data bytes =>
    refine .data (isPush_pushing bytes) (data_headed _ bytes) ?_
    rintro limit script position other fits finds rfl
    obtain ⟨rest, found⟩ := (Indexed.finds_iff fits).mp finds
    exact (complete_of_next found).headerLength_pushing_le

/-- A walk through a script that was put together finds one instruction for each part, which
is the opcode or the shortest push of the data, and nothing behind the last of them. So an
opcode is taken out just as if its parts had been left out. -/
theorem build_found_by_walk (elements : List Element) (fit : ∀ element ∈ elements, element.Fits) :
    (∃ instructions, List.Forall₂ Element.Becomes elements instructions ∧
      ∀ limit, (build elements).length + 5 ≤ limit → ∀ found tail,
        Indexed.Walk limit (build elements) 0 found tail ↔ found = instructions ∧ tail = []) ∧
    ∀ opcode, Opcode.pushData4 < opcode →
      strip opcode (build elements) = build (elements.filter (· ≠ .opcode opcode)) := by
  refine ⟨⟨elements.map Element.instruction, ?_, ?_⟩, fun opcode plain => strip_build fit plain⟩
  · rw [List.forall₂_map_right_iff, List.forall₂_same]
    exact fun element _ => element.becomes_instruction
  · intro limit fits found tail
    rw [Indexed.walk_iff fits, parse_build fit, Parsed.mk.injEq]
    exact and_congr eq_comm eq_comm

def separatedParts : List Element :=
  [.opcode 0xab, .data (List.replicate 76 0xab), .opcode 0x00, .data [], .opcode 0xab]

theorem build_found_by_walk_separated :
    (∃ instructions, List.Forall₂ Element.Becomes separatedParts instructions ∧
      Indexed.Walk 128 (build separatedParts) 0 instructions []) ∧
    strip 0xab (build separatedParts) =
      build [.data (List.replicate 76 0xab), .opcode 0x00, .data []] := by
  obtain ⟨⟨instructions, becomes, walks⟩, strips⟩ :=
    build_found_by_walk separatedParts (by decide)
  refine ⟨⟨instructions, becomes, (walks 128 (by decide) _ _).mpr ⟨rfl, rfl⟩⟩, ?_⟩
  rw [strips 0xab (by decide)]
  rfl

end Script

end BitcoinSigning
