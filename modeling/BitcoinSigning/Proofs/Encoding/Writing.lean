import BitcoinSigning.Proofs.Encoding.CompactSizeReading
import Mathlib.Logic.Relation
/-!
Writing to anything that takes bytes, and counting what is written. A writer may take only the
first few of the bytes that it is given, and is given the others again. Each part is written by
a program that also adds up a count of its own; what such a program writes is found by putting
together what its steps write.
-/

namespace BitcoinSigning

inductive WriteError
  | nothingTaken
  | failed (message : String)
  deriving DecidableEq

/-- Of the bytes that it is given, a writer takes some of the first ones and tells how many. A
turn that was interrupted took nothing and is made again, so that it is none here. -/
structure Writer (σ : Type) where
  write : Bytes → σ → Except String Nat × σ

structure Written (σ : Type) where
  state : σ
  bytes : Bytes

abbrev Writing (σ : Type) : Type → Type := ExceptT WriteError (StateM (Written σ))

theorem Writing.bind_of_ok {σ α β : Type} {first : Writing σ α} {next : α → Writing σ β} {a : α}
    {before after : Written σ} (ran : first before = (.ok a, after)) :
    (first >>= next) before = next a after := by
  simp only [bind, ExceptT.bind, ExceptT.mk, StateT.bind, ran, ExceptT.bindCont]

namespace Writer

variable {σ : Type}

def give (w : Writer σ) (bytes : Bytes) : Writing σ Nat := fun before =>
  match w.write bytes before.state with
  | (.ok count, state) => (.ok count, ⟨state, before.bytes ++ bytes.take count⟩)
  | (.error message, state) => (.error (.failed message), ⟨state, before.bytes⟩)

def writeAll (w : Writer σ) (bytes : Bytes) : Writing σ Unit :=
  if bytes = [] then pure ()
  else do
    let count ← w.give bytes
    if count = 0 then throw .nothingTaken else w.writeAll (bytes.drop count)
termination_by bytes.length
decreasing_by
  have some := List.length_pos_iff.mpr ‹¬bytes = []›
  rw [List.length_drop]
  omega

/-- The writer never fails, and takes at least one byte of those that it is given. -/
def TakesAll (w : Writer σ) : Prop :=
  ∀ (bytes : Bytes) (state : σ), bytes ≠ [] → ∃ count state',
    w.write bytes state = (.ok count, state') ∧ 0 < count ∧ count ≤ bytes.length

def counter : Writer Nat where
  write bytes count := (.ok bytes.length, count + bytes.length)

def collector : Writer Bytes where
  write bytes kept := (.ok bytes.length, kept ++ bytes)

theorem counter_takesAll : counter.TakesAll := fun bytes count some =>
  ⟨bytes.length, count + bytes.length, rfl, List.length_pos_iff.mpr some, Nat.le_refl _⟩

theorem collector_takesAll : collector.TakesAll := fun bytes kept some =>
  ⟨bytes.length, kept ++ bytes, rfl, List.length_pos_iff.mpr some, Nat.le_refl _⟩

def Gives (w : Writer σ) (before after : Written σ) : Prop :=
  ∃ bytes, (w.give bytes before).2 = after

end Writer

/-- From any state, the program gives `a` back, and the writer has then taken these bytes. -/
def Emits {σ α : Type} (w : Writer σ) (program : Writing σ α) (a : α) (bytes : Bytes) : Prop :=
  ∀ before : Written σ, ∃ after, program before = (.ok a, after) ∧
    after.bytes = before.bytes ++ bytes ∧ Relation.ReflTransGen w.Gives before after

namespace Emits

variable {σ α β : Type} {w : Writer σ} {a : α} {b : β} {x y z : Bytes}

theorem pure (w : Writer σ) (a : α) : Emits w (Pure.pure a) a [] := fun before =>
  ⟨before, rfl, (List.append_nil _).symm, .refl⟩

theorem bind {first : Writing σ α} {next : α → Writing σ β} (one : Emits w first a x)
    (two : Emits w (next a) b y) (whole : x ++ y = z) : Emits w (first >>= next) b z := by
  intro before
  obtain ⟨middle, ranFirst, tookFirst, reached⟩ := one before
  obtain ⟨after, ranNext, tookNext, reachedNext⟩ := two middle
  refine ⟨after, ?_, ?_, reached.trans reachedNext⟩
  · rw [Writing.bind_of_ok ranFirst, ranNext]
  · rw [tookNext, tookFirst, List.append_assoc, whole]

theorem writeAll (takesAll : w.TakesAll) (bytes : Bytes) : Emits w (w.writeAll bytes) () bytes := by
  intro before
  rw [Writer.writeAll]
  by_cases done : bytes = []
  · rw [if_pos done, done]
    exact pure w () before
  · obtain ⟨count, state, took, positive, within⟩ := takesAll bytes before.state done
    have turn : w.give bytes before = (.ok count, ⟨state, before.bytes ++ bytes.take count⟩) := by
      rw [Writer.give, took]
    have shorter : (bytes.drop count).length < bytes.length := by
      rw [List.length_drop]
      omega
    obtain ⟨after, ran, taken, reached⟩ :=
      writeAll takesAll (bytes.drop count) ⟨state, before.bytes ++ bytes.take count⟩
    refine ⟨after, ?_, ?_, .head ⟨bytes, congrArg Prod.snd turn⟩ reached⟩
    · rw [if_neg done, Writing.bind_of_ok turn, if_neg (Nat.pos_iff_ne_zero.mp positive), ran]
    · rw [taken, List.append_assoc, List.take_append_drop]
termination_by bytes.length

end Emits

/-! Numbers and byte strings. -/

section Parts

variable {σ : Type}

namespace CompactSize

def write (n : UInt64) (w : Writer σ) : Writing σ Nat :=
  if n < 0xfd then do
    w.writeAll [n.toUInt8]
    return 1
  else if n < 0x10000 then do
    w.writeAll [0xfd]
    w.writeAll (Bytes.littleEndian 2 n.toUInt16.toNat)
    return 3
  else if n < 0x100000000 then do
    w.writeAll [0xfe]
    w.writeAll (Bytes.littleEndian 4 n.toUInt32.toNat)
    return 5
  else do
    w.writeAll [0xff]
    w.writeAll (Bytes.littleEndian 8 n.toNat)
    return 9

end CompactSize

def SizedBytes.write (bytes : Bytes) (w : Writer σ) : Writing σ Nat := do
  let length ← CompactSize.write bytes.length.toUInt64 w
  w.writeAll bytes
  return length + bytes.length

namespace Emits

variable {w : Writer σ}

private theorem marked (takesAll : w.TakesAll) (marker : UInt8) (field : Bytes) (count : Nat) :
    Emits w (do w.writeAll [marker]; w.writeAll field; return count) count (marker :: field) :=
  bind (writeAll takesAll [marker])
    (bind (writeAll takesAll field) (pure w count) (List.append_nil field)) rfl

theorem compactSize (takesAll : w.TakesAll) (n : UInt64) :
    Emits w (CompactSize.write n w) (CompactSize.encodedSize n) (CompactSize.encode n) := by
  rw [CompactSize.write, CompactSize.encodedSize, CompactSize.encode]
  split
  case isTrue => exact bind (writeAll takesAll [n.toUInt8]) (pure w 1) rfl
  case isFalse =>
    split
    case isTrue small =>
      have cut : n.toUInt16.toNat = n.toNat := Nat.mod_eq_of_lt (UInt64.lt_iff_toNat_lt.mp small)
      rw [cut]
      exact marked takesAll 0xfd _ 3
    case isFalse =>
      split
      case isTrue small =>
        have cut : n.toUInt32.toNat = n.toNat := Nat.mod_eq_of_lt (UInt64.lt_iff_toNat_lt.mp small)
        rw [cut]
        exact marked takesAll 0xfe _ 5
      case isFalse => exact marked takesAll 0xff _ 9

theorem sizedBytes (takesAll : w.TakesAll) (bytes : Bytes) :
    Emits w (SizedBytes.write bytes w) (SizedBytes.encodedSize bytes) (SizedBytes.encode bytes) :=
  bind (compactSize takesAll bytes.length.toUInt64)
    (bind (writeAll takesAll bytes) (pure w _) (List.append_nil bytes)) rfl

end Emits

end Parts

/-! What all writers make of a program. -/

/-- A program gives the number of bytes that it writes, to any writer that takes everything. A
counter counts as many, and in a collector there are just these bytes in the end. -/
structure Counts (program : (σ : Type) → Writer σ → Writing σ Nat) (bytes : Bytes)
    (size : Nat) : Prop where
  length : bytes.length = size
  written : ∀ (σ : Type) (w : Writer σ), w.TakesAll → ∀ state, ∃ state',
    program σ w ⟨state, []⟩ = (.ok size, ⟨state', bytes⟩)
  counted : (program Nat .counter ⟨0, []⟩).2.state = size
  collected : (program Bytes .collector ⟨[], []⟩).2.state = bytes

namespace Writer

variable {σ : Type} {w : Writer σ} {before after : Written σ}

theorem kept_of_reached (kept : Written σ → Prop)
    (step : ∀ before after, w.Gives before after → kept before → kept after)
    (reached : Relation.ReflTransGen w.Gives before after) (start : kept before) : kept after := by
  induction reached with
  | refl => exact start
  | tail _ turn ih => exact step _ _ turn ih

theorem counter_counts {before after : Written Nat}
    (reached : Relation.ReflTransGen counter.Gives before after)
    (start : before.state = before.bytes.length) : after.state = after.bytes.length := by
  refine kept_of_reached (fun written => written.state = written.bytes.length) ?_ reached start
  intro before after turn sofar
  obtain ⟨bytes, rfl⟩ := turn
  change before.state + bytes.length = (before.bytes ++ bytes.take bytes.length).length
  rw [List.take_length, List.length_append, sofar]

theorem collector_keeps {before after : Written Bytes}
    (reached : Relation.ReflTransGen collector.Gives before after)
    (start : before.state = before.bytes) : after.state = after.bytes := by
  refine kept_of_reached (fun written => written.state = written.bytes) ?_ reached start
  intro before after turn sofar
  obtain ⟨bytes, rfl⟩ := turn
  change before.state ++ bytes = before.bytes ++ bytes.take bytes.length
  rw [List.take_length, sofar]

end Writer

theorem counts_of_emits {program : (σ : Type) → Writer σ → Writing σ Nat} {bytes : Bytes}
    {size : Nat} (length : bytes.length = size)
    (emits : ∀ (σ : Type) (w : Writer σ), w.TakesAll → Emits w (program σ w) size bytes) :
    Counts program bytes size := by
  refine ⟨length, ?written, ?counted, ?collected⟩
  case written =>
    intro σ w takesAll state
    obtain ⟨⟨state', taken⟩, ran, same, -⟩ := emits σ w takesAll ⟨state, []⟩
    obtain rfl : taken = bytes := same
    exact ⟨state', ran⟩
  case counted =>
    obtain ⟨after, ran, taken, reached⟩ := emits Nat .counter Writer.counter_takesAll ⟨0, []⟩
    rw [ran, Writer.counter_counts reached rfl, taken]
    exact length
  case collected =>
    obtain ⟨after, ran, taken, reached⟩ := emits Bytes .collector Writer.collector_takesAll ⟨[], []⟩
    rw [ran, Writer.collector_keeps reached rfl, taken]
    rfl

end BitcoinSigning
