import BitcoinSigning.Proofs.Script.Parsing
/-!
Instructions by position. The length of an instruction is found from bytes that are asked
for at positions, each of which may lie outside of the script or be no position at all, and
then there is no outcome. Positions are the numbers below a limit, and a script with a header
behind it ends below the limit. Then every byte that is asked for is there; a walk from one
instruction to the next comes to an end, and finds what the script is parsed to.
-/

namespace BitcoinSigning.Script

namespace Indexed

variable {α β : Type}

/-- What lies outside of the script has no outcome; a push that runs past its end has one,
which is to find nothing. -/
abbrev Finding : Type → Type := OptionT Option

def demand (found : Option α) : Finding α := OptionT.lift found

def settled (outcome : Option α) : Finding α := OptionT.mk (some outcome)

def byteAt (script : Bytes) (position : Nat) : Option UInt8 := script[position]?

def range (script : Bytes) (start stop : Nat) : Option Bytes :=
  if start ≤ stop ∧ stop ≤ script.length then some ((script.take stop).drop start) else none

def sum (limit first second : Nat) : Option Nat :=
  if first + second < limit then some (first + second) else none

def numberFrom (field : Bytes) : Nat → Nat → Option Nat
  | 0, _ => some 0
  | width + 1, offset => do
    let low ← byteAt field offset
    let high ← numberFrom field width (offset + 1)
    return low.toNat + 256 * high

def shortLengths (limit : Nat) (script : Bytes) (position : Nat) : Finding (Nat × Nat) := do
  let after ← demand (sum limit position 1)
  let length ← settled (byteAt script after)
  return (2, length.toNat)

def wideLengths (width limit : Nat) (script : Bytes) (position : Nat) : Finding (Nat × Nat) := do
  let start ← demand (sum limit position 1)
  let stop ← demand (sum limit position (1 + width))
  let field ← settled (range script start stop)
  let length ← demand (numberFrom field width 0)
  return (1 + width, length)

def lengths (limit : Nat) (script : Bytes) (position : Nat) : Finding (Nat × Nat) := do
  let opcode ← demand (byteAt script position)
  if 0x01 ≤ opcode ∧ opcode ≤ 0x4b then return (1, opcode.toNat)
  else if opcode = 0x4c then shortLengths limit script position
  else if opcode = 0x4d then wideLengths 2 limit script position
  else if opcode = 0x4e then wideLengths 4 limit script position
  else return (1, 0)

def totalLength (limit : Nat) (script : Bytes) (position header data : Nat) : Finding Nat := do
  let total ← settled (sum limit header data)
  let stop ← settled (sum limit position total)
  if script.length < stop then settled none else return total

def instructionLength (limit : Nat) (script : Bytes) (position : Nat) : Finding Nat := do
  let found ← lengths limit script position
  totalLength limit script position found.1 found.2

/-! What is inside is found. -/

theorem settled_some_bind (a : α) (next : α → Finding β) : (settled (some a) >>= next) = next a :=
  rfl

theorem settled_none_bind (next : α → Finding β) : (settled none >>= next) = settled none := rfl

theorem demand_some (a : α) : demand (some a) = settled (some a) := rfl

section Positions

variable {script following : Bytes} {limit position : Nat} {opcode : UInt8}

theorem byteAt_of_drop (form : script.drop position = opcode :: following) :
    byteAt script position = some opcode := by
  rw [byteAt, ← List.head?_drop, form, List.head?_cons]

theorem drop_succ_of_drop (form : script.drop position = opcode :: following) :
    script.drop (position + 1) = following := by
  rw [← List.drop_drop, form, List.drop_one, List.tail_cons]

theorem length_of_drop (form : script.drop position = opcode :: following) :
    script.length = position + 1 + following.length := by
  have length := congrArg List.length form
  rw [List.length_drop, List.length_cons] at length
  omega

theorem range_eq (script : Bytes) (start length : Nat) (inside : start ≤ script.length) :
    range script start (start + length) =
      if length ≤ (script.drop start).length then some ((script.drop start).take length)
      else none := by
  by_cases enough : start + length ≤ script.length
  · rw [range, if_pos ⟨Nat.le_add_right start length, enough⟩, if_pos (by rw [List.length_drop]; omega),
      List.drop_take, Nat.add_sub_cancel_left]
  · rw [range, if_neg (fun within => enough within.2), if_neg (by rw [List.length_drop]; omega)]

theorem sum_of_lt {first second : Nat} (below : first + second < limit) :
    sum limit first second = some (first + second) := if_pos below

theorem numberFrom_eq (field : Bytes) (width offset : Nat) (whole : offset + width = field.length) :
    numberFrom field width offset = some (Bytes.ofLittleEndian (field.drop offset)) := by
  induction width generalizing offset with
  | zero => rw [List.drop_of_length_le (by omega), numberFrom]; rfl
  | succ width ih =>
    have inside : offset < field.length := by omega
    have low : byteAt field offset = some field[offset] := List.getElem?_eq_getElem inside
    rw [numberFrom, low, ih (offset + 1) (by omega), List.drop_eq_getElem_cons inside]
    rfl

theorem shortLengths_eq (fits : script.length + 5 ≤ limit)
    (form : script.drop position = opcode :: following) :
    shortLengths limit script position =
      settled (if 1 ≤ following.length then
        some (1 + 1, Bytes.ofLittleEndian (following.take 1)) else none) := by
  have length := length_of_drop form
  rw [shortLengths, sum_of_lt (by omega), demand_some, settled_some_bind, byteAt, ← List.head?_drop,
    drop_succ_of_drop form]
  cases following with
  | nil => rfl
  | cons first others => rfl

theorem wideLengths_eq (fits : script.length + 5 ≤ limit)
    (form : script.drop position = opcode :: following) {width : Nat} (narrow : width ≤ 4) :
    wideLengths width limit script position =
      settled (if width ≤ following.length then
        some (1 + width, Bytes.ofLittleEndian (following.take width)) else none) := by
  have length := length_of_drop form
  rw [wideLengths, sum_of_lt (by omega), demand_some, settled_some_bind, sum_of_lt (by omega),
    demand_some, settled_some_bind, ← Nat.add_assoc, range_eq _ _ _ (by omega),
    drop_succ_of_drop form]
  by_cases enough : width ≤ following.length
  · have taken : (following.take width).length = width := List.length_take_of_le enough
    rw [if_pos enough, if_pos enough, settled_some_bind,
      numberFrom_eq _ width 0 (by rw [taken, Nat.zero_add]), List.drop_zero, demand_some,
      settled_some_bind]
    rfl
  · rw [if_neg enough, if_neg enough, settled_none_bind]

theorem eq_zero_or_gt (notDirect : ¬(0x01 ≤ opcode ∧ opcode ≤ 0x4b)) (notOne : opcode ≠ 0x4c)
    (notTwo : opcode ≠ 0x4d) (notFour : opcode ≠ 0x4e) :
    opcode = 0 ∨ Opcode.pushData4 < opcode := by
  simp only [UInt8.le_iff_toNat_le, UInt8.lt_iff_toNat_lt, ne_eq, ← UInt8.toNat_inj]
    at notDirect notOne notTwo notFour ⊢
  change ¬(1 ≤ opcode.toNat ∧ opcode.toNat ≤ 75) at notDirect
  change ¬opcode.toNat = 76 at notOne
  change ¬opcode.toNat = 77 at notTwo
  change ¬opcode.toNat = 78 at notFour
  change opcode.toNat = 0 ∨ 78 < opcode.toNat
  omega

/-- The lengths are those that the opcode and the bytes behind it announce, if all bytes that
hold the length of the data are there. -/
theorem lengths_eq (fits : script.length + 5 ≤ limit)
    (form : script.drop position = opcode :: following) :
    lengths limit script position =
      settled (if Instruction.lengthWidth opcode ≤ following.length then
        some (1 + Instruction.lengthWidth opcode, Instruction.dataLength opcode following)
        else none) := by
  have plain (width : Instruction.lengthWidth opcode = 0)
      (nothing : Instruction.dataLength opcode following = 0) :
      (return (1, 0) : Finding (Nat × Nat)) =
        settled (if Instruction.lengthWidth opcode ≤ following.length then
          some (1 + Instruction.lengthWidth opcode, Instruction.dataLength opcode following)
          else none) := by
    rw [width, nothing, if_pos (Nat.zero_le _)]
    rfl
  rw [lengths, byteAt_of_drop form, demand_some, settled_some_bind]
  by_cases direct : 0x01 ≤ opcode ∧ opcode ≤ 0x4b
  · have less : opcode < Opcode.pushData1 := UInt8.lt_of_le_of_lt direct.2 (by decide)
    rw [if_pos direct, Instruction.lengthWidth_of_lt less, Instruction.dataLength, if_pos less,
      if_pos (Nat.zero_le _)]
    rfl
  rw [if_neg direct]
  by_cases one : opcode = 0x4c
  · subst one
    exact shortLengths_eq fits form
  rw [if_neg one]
  by_cases two : opcode = 0x4d
  · subst two
    exact wideLengths_eq fits form (by decide)
  rw [if_neg two]
  by_cases four : opcode = 0x4e
  · subst four
    exact wideLengths_eq fits form (by decide)
  rw [if_neg four]
  rcases eq_zero_or_gt direct one two four with rfl | greater
  · exact plain rfl rfl
  · exact plain (Instruction.lengthWidth_of_gt greater) (Instruction.dataLength_of_gt greater _)

theorem totalLength_eq (fits : script.length < limit) (header data : Nat) :
    totalLength limit script position header data =
      settled (if position + (header + data) ≤ script.length then some (header + data)
        else none) := by
  rw [totalLength]
  by_cases within : position + (header + data) ≤ script.length
  · rw [if_pos within, sum_of_lt (by omega), settled_some_bind, sum_of_lt (by omega),
      settled_some_bind, if_neg (Nat.not_lt.mpr within)]
    rfl
  rw [if_neg within]
  by_cases first : header + data < limit
  · rw [sum_of_lt first, settled_some_bind]
    by_cases second : position + (header + data) < limit
    · rw [sum_of_lt second, settled_some_bind, if_pos (Nat.not_le.mp within)]
    · rw [sum, if_neg second, settled_none_bind]
  · rw [sum, if_neg first, settled_none_bind]

theorem map_length_next (opcode : UInt8) (following : Bytes) :
    (next (opcode :: following)).map (fun found => found.1.bytes.length) =
      if Instruction.operandLength opcode following ≤ following.length then
        some (1 + Instruction.operandLength opcode following) else none := by
  rw [next, List.length_take]
  by_cases enough : Instruction.operandLength opcode following ≤ following.length
  · rw [if_neg (by omega), if_pos enough, Option.map_some, Instruction.bytes, List.length_cons,
      List.length_take_of_le enough, Nat.add_comm]
  · rw [if_pos (by omega), if_neg enough, Option.map_none]

theorem instructionLength_eq (fits : script.length + 5 ≤ limit)
    (inside : position < script.length) :
    instructionLength limit script position =
      settled ((next (script.drop position)).map fun found => found.1.bytes.length) := by
  have form := List.drop_eq_getElem_cons inside
  have length := length_of_drop form
  rw [instructionLength, lengths_eq fits form, form, map_length_next, Instruction.operandLength_eq]
  by_cases field : Instruction.lengthWidth script[position] ≤ (script.drop (position + 1)).length
  · rw [if_pos field, settled_some_bind, totalLength_eq (by omega), Nat.add_assoc]
    by_cases enough : Instruction.lengthWidth script[position] +
        Instruction.dataLength script[position] (script.drop (position + 1)) ≤
          (script.drop (position + 1)).length
    · rw [if_pos enough, if_pos (by omega)]
    · rw [if_neg enough, if_neg (by omega)]
  · rw [if_neg field, settled_none_bind, if_neg (by omega)]

end Positions

/-- An instruction stands at this position: its length is found there, and its bytes. -/
def Finds (limit : Nat) (script : Bytes) (position : Nat) (instruction : Instruction) : Prop :=
  (instructionLength limit script position).run = some (some instruction.bytes.length) ∧
    range script position (position + instruction.bytes.length) = some instruction.bytes

/-- The instructions from a position on, one behind another by their lengths, and the bytes
from where no length is found. -/
inductive Walk (limit : Nat) (script : Bytes) : Nat → List Instruction → Bytes → Prop
  | ended {position : Nat} (behind : script.length ≤ position) : Walk limit script position [] []
  | cut {position : Nat} {tail : Bytes} (inside : position < script.length)
    (short : (instructionLength limit script position).run = some none)
    (others : range script position script.length = some tail) : Walk limit script position [] tail
  | further {position : Nat} {instruction : Instruction} {instructions : List Instruction}
    {tail : Bytes} (inside : position < script.length) (found : Finds limit script position instruction)
    (others : Walk limit script (position + instruction.bytes.length) instructions tail) :
    Walk limit script position (instruction :: instructions) tail

section Walks

variable {script tail : Bytes} {limit position : Nat} {instruction : Instruction}
  {instructions : List Instruction}

theorem settled_run (outcome : Option α) : (settled outcome).run = some outcome := rfl

theorem instructionLength_eq_none_iff (fits : script.length + 5 ≤ limit)
    (inside : position < script.length) :
    (instructionLength limit script position).run = some none ↔
      next (script.drop position) = none := by
  rw [instructionLength_eq fits inside, settled_run, Option.some.injEq, Option.map_eq_none_iff]

theorem instructionLength_of_le (behind : script.length ≤ position) :
    (instructionLength limit script position).run = none := by
  have missing : byteAt script position = none := List.getElem?_eq_none behind
  rw [instructionLength, lengths, missing]
  rfl

theorem bytes_injective : Function.Injective Instruction.bytes := by
  intro first second same
  obtain ⟨opcode, operand⟩ := List.cons.inj same
  cases first
  cases second
  congr

theorem range_bytes_iff (within : position ≤ script.length) :
    range script position (position + instruction.bytes.length) = some instruction.bytes ↔
      ∃ rest, script.drop position = instruction.bytes ++ rest := by
  rw [range_eq _ _ _ within]
  constructor
  · intro found
    split at found
    · rw [← Option.some.inj found]
      exact ⟨_, (List.take_append_drop _ _).symm⟩
    · cases found
  · rintro ⟨rest, form⟩
    rw [form, List.take_left, if_pos (by rw [List.length_append]; omega)]

theorem finds_iff (fits : script.length + 5 ≤ limit) :
    Finds limit script position instruction ↔
      ∃ rest, next (script.drop position) = some (instruction, rest) := by
  rw [Finds]
  by_cases inside : position < script.length
  · rw [range_bytes_iff (Nat.le_of_lt inside), instructionLength_eq fits inside, settled_run,
      Option.some.injEq, Option.map_eq_some_iff]
    constructor
    · rintro ⟨⟨⟨other, rest⟩, found, length⟩, others, form⟩
      have same := List.append_inj (form.symm.trans (eq_of_next found)) length.symm
      exact ⟨rest, bytes_injective same.1 ▸ found⟩
    · rintro ⟨rest, found⟩
      exact ⟨⟨_, found, rfl⟩, rest, eq_of_next found⟩
  · have behind := Nat.not_lt.mp inside
    rw [instructionLength_of_le behind, List.drop_of_length_le behind]
    constructor
    · rintro ⟨found, -⟩
      cases found
    · rintro ⟨rest, found⟩
      cases found

theorem drop_of_next {rest : Bytes} (found : next (script.drop position) = some (instruction, rest)) :
    script.drop (position + instruction.bytes.length) = rest := by
  rw [← List.drop_drop, eq_of_next found, List.drop_left]

theorem within_of_next {rest : Bytes}
    (found : next (script.drop position) = some (instruction, rest)) :
    position < script.length ∧ position + instruction.bytes.length ≤ script.length := by
  have length := congrArg List.length (eq_of_next found)
  rw [List.length_drop, List.length_append, Instruction.bytes, List.length_cons] at length
  rw [Instruction.bytes, List.length_cons]
  omega

theorem parse_of_walk (fits : script.length + 5 ≤ limit) (within : position ≤ script.length)
    (walk : Walk limit script position instructions tail) :
    parse (script.drop position) = ⟨instructions, tail⟩ := by
  induction walk with
  | ended behind =>
    rw [List.drop_of_length_le behind]
    exact parse_of_none rfl
  | cut inside short others =>
    rw [instructionLength_eq_none_iff fits inside] at short
    rw [range, if_pos ⟨within, Nat.le_refl _⟩, List.take_length] at others
    rw [parse_of_none short, Option.some.inj others]
  | further inside finds others ih =>
    obtain ⟨rest, found⟩ := (finds_iff fits).mp finds
    have parsed := ih (within_of_next found).2
    rw [drop_of_next found] at parsed
    rw [parse_of_some found, parsed]

theorem walk_parse (fits : script.length + 5 ≤ limit) (position : Nat)
    (within : position ≤ script.length) :
    Walk limit script position (parse (script.drop position)).instructions
      (parse (script.drop position)).rest := by
  match found : next (script.drop position) with
  | some (instruction, rest) =>
    obtain ⟨inside, further⟩ := within_of_next found
    have others := walk_parse fits (position + instruction.bytes.length) further
    rw [drop_of_next found] at others
    rw [parse_of_some found]
    exact .further inside ((finds_iff fits).mpr ⟨rest, found⟩) others
  | none =>
    rw [parse_of_none found]
    rcases Nat.lt_or_ge position script.length with inside | behind
    · refine .cut inside ((instructionLength_eq_none_iff fits inside).mpr found) ?_
      rw [range, if_pos ⟨within, Nat.le_refl _⟩, List.take_length]
    · rw [List.drop_of_length_le behind]
      exact .ended behind
termination_by script.length - position
decreasing_by
  have longer : 0 < instruction.bytes.length := Nat.succ_pos _
  omega

theorem walk_iff (fits : script.length + 5 ≤ limit) :
    Walk limit script 0 instructions tail ↔ parse script = ⟨instructions, tail⟩ := by
  constructor
  · exact parse_of_walk fits (Nat.zero_le _)
  · intro parsed
    have walk := walk_parse fits 0 (Nat.zero_le _)
    rwa [List.drop_zero, parsed] at walk

end Walks

end Indexed

end BitcoinSigning.Script
