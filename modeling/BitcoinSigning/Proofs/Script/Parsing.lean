import BitcoinSigning.Proofs.Script.Stripping
/-!
A script falls into instructions in one way only. An instruction holds all that decides
where it ends, so it is found wherever it stands and whatever follows it; any instructions
in a row, before a tail that begins with none, are therefore what their bytes are parsed to.
-/

namespace BitcoinSigning

namespace Instruction

variable {instruction : Instruction} {opcode : UInt8} {following : Bytes}

def dataLength (opcode : UInt8) (following : Bytes) : Nat :=
  if opcode < Opcode.pushData1 then opcode.toNat
  else Bytes.ofLittleEndian (following.take (lengthWidth opcode))

theorem lengthWidth_of_lt (direct : opcode < Opcode.pushData1) : lengthWidth opcode = 0 := by
  have other (marker : UInt8) (above : Opcode.pushData1 ≤ marker) : opcode ≠ marker :=
    fun same => UInt8.not_lt.mpr above (same ▸ direct)
  rw [lengthWidth, if_neg (other _ (by decide)), if_neg (other _ (by decide)),
    if_neg (other _ (by decide))]

theorem lengthWidth_of_gt (plain : Opcode.pushData4 < opcode) : lengthWidth opcode = 0 := by
  have other (marker : UInt8) (below : marker ≤ Opcode.pushData4) : opcode ≠ marker :=
    fun same => UInt8.not_lt.mpr below (same ▸ plain)
  rw [lengthWidth, if_neg (other _ (by decide)), if_neg (other _ (by decide)),
    if_neg (other _ (by decide))]

theorem operandLength_eq (opcode : UInt8) (following : Bytes) :
    operandLength opcode following = lengthWidth opcode + dataLength opcode following := by
  unfold operandLength dataLength
  by_cases direct : opcode < Opcode.pushData1
  · rw [if_pos direct, if_pos direct, lengthWidth_of_lt direct, Nat.zero_add]
  · rw [if_neg direct, if_neg direct]

theorem dataLength_of_gt (plain : Opcode.pushData4 < opcode) (following : Bytes) :
    dataLength opcode following = 0 := by
  have notDirect : ¬opcode < Opcode.pushData1 :=
    UInt8.not_lt.mpr (UInt8.le_of_lt (UInt8.lt_of_le_of_lt (by decide) plain))
  rw [dataLength, if_neg notDirect, lengthWidth_of_gt plain, List.take_zero]
  rfl

theorem dataLength_congr {other : Bytes}
    (same : following.take (lengthWidth opcode) = other.take (lengthWidth opcode)) :
    dataLength opcode following = dataLength opcode other := by
  rw [dataLength, dataLength, same]

/-- The operand has as many bytes as are announced. -/
def Complete (instruction : Instruction) : Prop :=
  instruction.operand.length = operandLength instruction.opcode instruction.operand

instance (instruction : Instruction) : Decidable instruction.Complete :=
  inferInstanceAs (Decidable (_ = _))

theorem operandLength_append (complete : instruction.Complete) (rest : Bytes) :
    operandLength instruction.opcode (instruction.operand ++ rest) =
      instruction.operand.length := by
  rw [Complete, operandLength_eq] at complete
  have within : lengthWidth instruction.opcode ≤ instruction.operand.length := by omega
  rw [operandLength_eq, complete, dataLength_congr (List.take_append_of_le_length within)]

theorem operandLength_take (opcode : UInt8) (following : Bytes) :
    operandLength opcode (following.take (operandLength opcode following)) =
      operandLength opcode following := by
  have within : lengthWidth opcode ≤ operandLength opcode following := by
    rw [operandLength_eq]
    exact Nat.le_add_right _ _
  have field : (following.take (operandLength opcode following)).take (lengthWidth opcode) =
      following.take (lengthWidth opcode) := by
    rw [List.take_take, Nat.min_eq_left within]
  calc operandLength opcode (following.take (operandLength opcode following))
      = lengthWidth opcode + dataLength opcode (following.take (operandLength opcode following)) :=
        operandLength_eq _ _
    _ = lengthWidth opcode + dataLength opcode following := by rw [dataLength_congr field]
    _ = operandLength opcode following := (operandLength_eq _ _).symm

theorem Complete.operand_eq_nil (complete : instruction.Complete)
    (plain : Opcode.pushData4 < instruction.opcode) : instruction.operand = [] := by
  apply List.eq_nil_of_length_eq_zero
  rw [complete, operandLength_eq, lengthWidth_of_gt plain, dataLength_of_gt plain]

theorem isPush_eq_false_iff :
    instruction.isPush = false ↔ Opcode.pushData4 < instruction.opcode := by
  rw [isPush, decide_eq_false_iff_not, UInt8.not_le]

end Instruction

namespace Script

variable {script rest : Bytes} {instruction : Instruction} {instructions : List Instruction}

theorem next_bytes_append (complete : instruction.Complete) (rest : Bytes) :
    next (instruction.bytes ++ rest) = some (instruction, rest) := by
  have length := instruction.operandLength_append complete rest
  have enough : ¬instruction.operand.length < instruction.operand.length := Nat.lt_irrefl _
  change next (instruction.opcode :: (instruction.operand ++ rest)) = _
  simp only [next, length, List.take_left, List.drop_left, if_neg enough]

theorem complete_of_next (found : next script = some (instruction, rest)) :
    instruction.Complete := by
  cases script with
  | nil => cases found
  | cons opcode following =>
    simp only [next] at found
    split at found
    · cases found
    · rename_i enough
      obtain ⟨rfl, -⟩ := Prod.mk.inj (Option.some.inj found)
      have taken := List.length_take_le (Instruction.operandLength opcode following) following
      change (following.take (Instruction.operandLength opcode following)).length =
        Instruction.operandLength opcode
          (following.take (Instruction.operandLength opcode following))
      rw [Instruction.operandLength_take]
      omega

theorem complete_of_mem_parse (script : Bytes) :
    ∀ instruction ∈ (parse script).instructions, instruction.Complete := by
  match found : next script with
  | none =>
    rw [parse_of_none found]
    exact List.forall_mem_nil _
  | some (instruction, rest) =>
    rw [parse_of_some found]
    exact List.forall_mem_cons.mpr ⟨complete_of_next found, complete_of_mem_parse rest⟩
termination_by script.length
decreasing_by exact length_lt_of_next found

theorem next_parse_rest (script : Bytes) : next (parse script).rest = none := by
  match found : next script with
  | none => rwa [parse_of_none found]
  | some (instruction, rest) =>
    rw [parse_of_some found]
    exact next_parse_rest rest
termination_by script.length
decreasing_by exact length_lt_of_next found

theorem parse_bytes (complete : ∀ instruction ∈ instructions, instruction.Complete)
    (last : next rest = none) :
    parse (Parsed.bytes ⟨instructions, rest⟩) = ⟨instructions, rest⟩ := by
  induction instructions with
  | nil => exact parse_of_none last
  | cons instruction others ih =>
    obtain ⟨whole, wholeOthers⟩ := List.forall_mem_cons.mp complete
    have first : next (Parsed.bytes ⟨instruction :: others, rest⟩) =
        some (instruction, Parsed.bytes ⟨others, rest⟩) := by
      rw [Parsed.bytes, List.flatMap_cons, List.append_assoc]
      exact next_bytes_append whole _
    rw [parse_of_some first, ih wholeOthers]

/-- The only way to read the bytes as complete instructions before a tail that begins with
none is to parse them. -/
theorem parse_eq_iff :
    parse script = ⟨instructions, rest⟩ ↔
      (∀ instruction ∈ instructions, instruction.Complete) ∧ next rest = none ∧
        script = Parsed.bytes ⟨instructions, rest⟩ := by
  constructor
  · intro parsed
    have complete := complete_of_mem_parse script
    have last := next_parse_rest script
    have whole := bytes_parse script
    rw [parsed] at complete last whole
    exact ⟨complete, last, whole.symm⟩
  · rintro ⟨complete, last, rfl⟩
    exact parse_bytes complete last

theorem parse_append {front : Bytes} (whole : (parse front).rest = []) (script : Bytes) :
    parse (front ++ script) =
      ⟨(parse front).instructions ++ (parse script).instructions, (parse script).rest⟩ := by
  have front_eq := bytes_parse front
  rw [Parsed.bytes, whole, List.append_nil] at front_eq
  refine parse_eq_iff.mpr ⟨?_, next_parse_rest script, ?_⟩
  · exact List.forall_mem_append.mpr ⟨complete_of_mem_parse front, complete_of_mem_parse script⟩
  · rw [Parsed.bytes, List.flatMap_append, front_eq, List.append_assoc]
    exact congrArg (front ++ ·) (bytes_parse script).symm

end Script

end BitcoinSigning
