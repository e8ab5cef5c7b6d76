import BitcoinSigning.Proofs.Script.Walking
import Mathlib.Logic.Basic
/-!
Taking an opcode out of a script. What is left is parsed to the instructions that were kept,
since each of them holds all that decides where it ends: no boundary moves, and no data
turns into an opcode. The same script is left by a loop that goes from position to position,
which comes to its end without asking for anything outside of the script.
-/

namespace BitcoinSigning

/-- Whether the instruction stays when the instructions of this opcode are taken out. -/
def Instruction.stays (opcode : UInt8) (instruction : Instruction) : Bool :=
  instruction.isPush || instruction.opcode != opcode

namespace Instruction

variable {opcode : UInt8} {instruction : Instruction}

theorem stays_eq_false_iff :
    instruction.stays opcode = false ↔
      Opcode.pushData4 < instruction.opcode ∧ instruction.opcode = opcode := by
  rw [stays, Bool.or_eq_false_iff, isPush_eq_false_iff, bne_eq_false_iff_eq]

theorem stays_of_le (push : opcode ≤ Opcode.pushData4) (instruction : Instruction) :
    instruction.stays opcode = true := by
  apply Bool.of_not_eq_false
  rw [stays_eq_false_iff]
  rintro ⟨plain, rfl⟩
  exact UInt8.not_lt.mpr push plain

theorem Complete.stays_eq (complete : instruction.Complete) (plain : Opcode.pushData4 < opcode) :
    instruction.stays opcode = decide (instruction.bytes ≠ [opcode]) := by
  apply Bool.not_inj
  rw [decide_not, Bool.not_not, Bool.eq_iff_iff, Bool.not_eq_true', stays_eq_false_iff,
    decide_eq_true_iff]
  constructor
  · rintro ⟨plain, rfl⟩
    rw [bytes, complete.operand_eq_nil plain]
  · intro alone
    obtain ⟨rfl, -⟩ := List.cons.inj alone
    exact ⟨plain, rfl⟩

end Instruction

namespace Script

variable {opcode : UInt8} {script rest : Bytes} {instruction : Instruction}

theorem strip_eq (opcode : UInt8) (script : Bytes) :
    strip opcode script =
      Parsed.bytes ⟨(parse script).instructions.filter (·.stays opcode), (parse script).rest⟩ :=
  rfl

theorem strip_of_le (push : opcode ≤ Opcode.pushData4) (script : Bytes) :
    strip opcode script = script := by
  rw [strip_eq, List.filter_eq_self.mpr fun instruction _ => instruction.stays_of_le push]
  exact bytes_parse script

/-- What is left is parsed to the instructions that stay. -/
theorem parse_strip (opcode : UInt8) (script : Bytes) :
    parse (strip opcode script) =
      ⟨(parse script).instructions.filter (·.stays opcode), (parse script).rest⟩ := by
  refine parse_bytes (fun instruction member => ?_) (next_parse_rest script)
  exact complete_of_mem_parse script instruction (List.mem_filter.mp member).1

theorem parse_strip_of_gt (plain : Opcode.pushData4 < opcode) (script : Bytes) :
    parse (strip opcode script) =
      ⟨(parse script).instructions.filter fun instruction => instruction.bytes ≠ [opcode],
        (parse script).rest⟩ := by
  rw [parse_strip]
  congr 1
  exact List.filter_congr fun instruction member =>
    (complete_of_mem_parse script instruction member).stays_eq plain

theorem strip_strip (opcode : UInt8) (script : Bytes) :
    strip opcode (strip opcode script) = strip opcode script := by
  rw [strip_eq opcode (strip opcode script), parse_strip, List.filter_filter]
  simp only [Bool.and_self]
  rfl

theorem strip_append {front : Bytes} (opcode : UInt8) (whole : (parse front).rest = [])
    (script : Bytes) :
    strip opcode (front ++ script) = strip opcode front ++ strip opcode script := by
  rw [strip_eq, strip_eq, strip_eq, parse_append whole, whole]
  simp only [Parsed.bytes, List.filter_append, List.flatMap_append, List.append_nil,
    List.append_assoc]

theorem strip_of_none (last : next script = none) : strip opcode script = script := by
  rw [strip_eq, parse_of_none last]
  rfl

theorem strip_of_some (found : next script = some (instruction, rest)) :
    strip opcode script =
      (if instruction.stays opcode then instruction.bytes else []) ++ strip opcode rest := by
  rw [strip_eq, strip_eq, parse_of_some found]
  by_cases stays : instruction.stays opcode = true
  · rw [if_pos stays, List.filter_cons_of_pos stays, Parsed.bytes, List.flatMap_cons,
      List.append_assoc]
    rfl
  · rw [if_neg stays, List.filter_cons_of_neg stays]
    rfl

/-! The loop. -/

namespace Indexed

structure Progress where
  position : Nat
  kept : Bytes

def pass (limit : Nat) (opcode : UInt8) (script : Bytes) (state : Progress) :
    Option (Progress ⊕ Bytes) :=
  if state.position < script.length then do
    match ← (instructionLength limit script state.position).run with
    | none =>
      let tail ← range script state.position script.length
      return .inr (state.kept ++ tail)
    | some length =>
      let found ← byteAt script state.position
      let stop ← sum limit state.position length
      if found ≤ Opcode.pushData4 ∨ found ≠ opcode then do
        let bytes ← range script state.position stop
        return .inl ⟨stop, state.kept ++ bytes⟩
      else return .inl ⟨stop, state.kept⟩
  else return .inr state.kept

/-- From this state the loop comes to an end with the result, and every pass has an outcome. -/
inductive Ends (limit : Nat) (opcode : UInt8) (script : Bytes) : Progress → Bytes → Prop
  | returns {state : Progress} {result : Bytes}
    (last : pass limit opcode script state = some (.inr result)) :
    Ends limit opcode script state result
  | continues {state later : Progress} {result : Bytes}
    (further : pass limit opcode script state = some (.inl later))
    (others : Ends limit opcode script later result) : Ends limit opcode script state result

variable {limit : Nat} {state : Progress} {result : Bytes}

theorem Ends.unique {other : Bytes} (ends : Ends limit opcode script state result)
    (ends' : Ends limit opcode script state other) : result = other := by
  induction ends with
  | returns last =>
    cases ends' with
    | returns last' => exact Sum.inr.inj (Option.some.inj (last.symm.trans last'))
    | continues further' others' => cases last.symm.trans further'
  | continues further others ih =>
    cases ends' with
    | returns last' => cases further.symm.trans last'
    | continues further' others' =>
      obtain rfl := Sum.inl.inj (Option.some.inj (further.symm.trans further'))
      exact ih others'

theorem pass_of_none (fits : script.length + 5 ≤ limit) (within : state.position ≤ script.length)
    (last : next (script.drop state.position) = none) :
    pass limit opcode script state =
      some (.inr (state.kept ++ script.drop state.position)) := by
  rw [pass]
  by_cases inside : state.position < script.length
  · rw [if_pos inside, (instructionLength_eq_none_iff fits inside).mpr last, range,
      if_pos ⟨within, Nat.le_refl _⟩, List.take_length]
    rfl
  · rw [if_neg inside, List.drop_of_length_le (Nat.not_lt.mp inside), List.append_nil]
    rfl

theorem pass_of_some (fits : script.length + 5 ≤ limit)
    (found : next (script.drop state.position) = some (instruction, rest)) :
    pass limit opcode script state =
      some (.inl ⟨state.position + instruction.bytes.length,
        state.kept ++ if instruction.stays opcode then instruction.bytes else []⟩) := by
  obtain ⟨inside, further⟩ := within_of_next found
  obtain ⟨length, bytes⟩ := (finds_iff fits).mpr ⟨rest, found⟩
  have first : byteAt script state.position = some instruction.opcode :=
    byteAt_of_drop (eq_of_next found)
  have stays : instruction.opcode ≤ Opcode.pushData4 ∨ instruction.opcode ≠ opcode ↔
      instruction.stays opcode = true := by
    rw [← Bool.not_eq_false, Instruction.stays_eq_false_iff, not_and_or, UInt8.not_lt]
  have stop := sum_of_lt (show state.position + instruction.bytes.length < limit by omega)
  rw [pass, if_pos inside, length]
  simp only [Option.bind_eq_bind, Option.bind_some, first, stop, stays, bytes]
  split
  · rfl
  · rw [List.append_nil]
    rfl

theorem ends_strip (fits : script.length + 5 ≤ limit) (opcode : UInt8) (state : Progress)
    (within : state.position ≤ script.length) :
    Ends limit opcode script state
      (state.kept ++ strip opcode (script.drop state.position)) := by
  match found : next (script.drop state.position) with
  | none =>
    rw [strip_of_none found]
    exact .returns (pass_of_none fits within found)
  | some (instruction, rest) =>
    have others := ends_strip fits opcode ⟨state.position + instruction.bytes.length,
      state.kept ++ if instruction.stays opcode then instruction.bytes else []⟩
      (within_of_next found).2
    rw [drop_of_next found, List.append_assoc, ← strip_of_some found] at others
    exact .continues (pass_of_some fits found) others
termination_by script.length - state.position
decreasing_by
  have longer : 0 < instruction.bytes.length := Nat.succ_pos _
  have inside := (within_of_next found).1
  change script.length - (state.position + instruction.bytes.length) < _
  omega

theorem ends_iff (fits : script.length + 5 ≤ limit) :
    Ends limit opcode script ⟨0, []⟩ result ↔ result = strip opcode script := by
  have ends := ends_strip fits opcode ⟨0, []⟩ (Nat.zero_le _)
  constructor
  · exact fun other => other.unique ends
  · rintro rfl
    exact ends

end Indexed

/-- A walk through a script by the lengths of its instructions finds what the script is parsed
to. Pushes are never taken out; of any other opcode just the instructions that consist of it
are, and all others are found again as they were, with the tail. So taking an opcode out twice
changes nothing more, and scripts can be joined before or after. The loop ends on every script
with just this result, and nothing outside of the script is asked for on its way. -/
theorem strip_removes_instructions :
    (∀ script limit, script.length + 5 ≤ limit → ∀ instructions tail,
      Indexed.Walk limit script 0 instructions tail ↔ parse script = ⟨instructions, tail⟩) ∧
    (∀ opcode script, opcode ≤ Opcode.pushData4 → strip opcode script = script) ∧
    (∀ opcode script, Opcode.pushData4 < opcode →
      parse (strip opcode script) =
        ⟨(parse script).instructions.filter fun instruction => instruction.bytes ≠ [opcode],
          (parse script).rest⟩) ∧
    (∀ opcode script, strip opcode (strip opcode script) = strip opcode script) ∧
    (∀ opcode front script, (parse front).rest = [] →
      strip opcode (front ++ script) = strip opcode front ++ strip opcode script) ∧
    (∀ opcode script limit, script.length + 5 ≤ limit → ∀ result,
      Indexed.Ends limit opcode script ⟨0, []⟩ result ↔ result = strip opcode script) := by
  refine ⟨fun script limit fits instructions tail => Indexed.walk_iff fits,
    fun opcode script push => strip_of_le push script,
    fun opcode script plain => parse_strip_of_gt plain script, strip_strip,
    fun opcode front script whole => strip_append opcode whole script,
    fun opcode script limit fits result => Indexed.ends_iff fits⟩

def separated : Parsed :=
  ⟨[⟨0xab, []⟩, ⟨0x02, [0xab, 0xab]⟩, ⟨0x4c, [0x01, 0xab]⟩, ⟨0xab, []⟩], []⟩

theorem strip_removes_instructions_separators :
    strip 0x4c separated.bytes = separated.bytes ∧
    parse (strip 0xab separated.bytes) = ⟨[⟨0x02, [0xab, 0xab]⟩, ⟨0x4c, [0x01, 0xab]⟩], []⟩ ∧
    strip 0xab (separated.bytes ++ [0xab, 0x05, 0xab]) =
      strip 0xab separated.bytes ++ strip 0xab [0xab, 0x05, 0xab] ∧
    Indexed.Walk 64 separated.bytes 0 separated.instructions [] ∧
    Indexed.Ends 64 0xab separated.bytes ⟨0, []⟩ [0x02, 0xab, 0xab, 0x4c, 0x01, 0xab] := by
  obtain ⟨walks, pushes, others, -, joins, ends⟩ := strip_removes_instructions
  have parsed : parse separated.bytes = separated := parse_bytes (by decide) rfl
  refine ⟨pushes 0x4c _ (by decide), ?_, joins 0xab _ _ (by rw [parsed]; rfl),
    (walks _ 64 (by decide) _ _).mpr parsed, (ends 0xab _ 64 (by decide) _).mpr ?_⟩
  · rw [others 0xab _ (by decide), parsed]
    rfl
  · rw [strip_eq, parsed]
    rfl

end Script

end BitcoinSigning
