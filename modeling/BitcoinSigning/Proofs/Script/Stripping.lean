import BitcoinSigning.Script.Instruction
import Mathlib.Data.List.Flatten
/-!
The instructions of a script and its tail are all of its bytes, so that a script can
only become shorter when instructions are taken out.
-/

namespace BitcoinSigning.Script

theorem eq_of_next {script rest : Bytes} {instruction : Instruction}
    (found : next script = some (instruction, rest)) : script = instruction.bytes ++ rest := by
  cases script with
  | nil => cases found
  | cons opcode following =>
    simp only [next] at found
    split at found
    · cases found
    · obtain ⟨rfl, rfl⟩ := Prod.mk.inj (Option.some.inj found)
      rw [Instruction.bytes, List.cons_append, List.take_append_drop]

theorem bytes_parse (script : Bytes) : (parse script).bytes = script := by
  match found : next script with
  | none => rw [parse_of_none found, Parsed.bytes, List.flatMap_nil, List.nil_append]
  | some (instruction, rest) =>
    rw [parse_of_some found, Parsed.bytes, List.flatMap_cons, List.append_assoc]
    change instruction.bytes ++ (parse rest).bytes = script
    rw [bytes_parse rest, ← eq_of_next found]
termination_by script.length
decreasing_by exact length_lt_of_next found

theorem length_strip_le (opcode : UInt8) (script : Bytes) :
    (strip opcode script).length ≤ script.length := by
  have whole := congrArg List.length (bytes_parse script)
  rw [Parsed.bytes, List.length_append] at whole
  have fewer : ((parse script).instructions.filter fun instruction =>
      instruction.isPush || instruction.opcode != opcode).Sublist (parse script).instructions :=
    List.filter_sublist
  have shorter := (fewer.flatMap Instruction.bytes).length_le
  rw [strip, Parsed.bytes, List.length_append]
  simp only
  omega

end BitcoinSigning.Script
