import BitcoinSigning.Proofs.Encoding.CompactSizeReading
import BitcoinSigning.Proofs.Encoding.Streaming
/-!
The one encoding of a number, and of a byte string behind its length. A number can be spelled
in one byte or behind a marker in fields of three widths. What is written is the shortest of
these forms, and the others are refused for their length: the numbers for which a form is
longer than necessary are just those below the least that the reader takes in this form.
-/

namespace BitcoinSigning

attribute [local instance (high)] instPowNat

namespace Decoder

variable {α β : Type} {e : DecodeError}

theorem bind_eq_error_iff {first : Decoder α} {next : α → Decoder β} {source : Source} :
    (first >>= next) source = .error e ↔
      first source = .error e ∨
        ∃ a middle, first source = .ok (a, middle) ∧ next a middle = .error e := by
  cases read : first source with
  | error other =>
    rw [bind_of_error read]
    constructor
    · exact fun failed => Or.inl (congrArg Except.error (Except.error.inj failed))
    · rintro (failed | ⟨_, _, found, _⟩)
      · exact congrArg Except.error (Except.error.inj failed)
      · cases found
  | ok found =>
    obtain ⟨a, middle⟩ := found
    rw [bind_of_ok read]
    constructor
    · exact fun failed => Or.inr ⟨a, middle, rfl, failed⟩
    · rintro (failed | ⟨_, _, found, failed⟩)
      · cases failed
      · cases found
        exact failed

theorem pure_ne_error {a : α} {source : Source} : (pure a : Decoder α) source ≠ .error e := by
  intro read
  cases read

theorem unless_eq_error_iff {refused : Prop} [Decidable refused] {reason : DecodeError}
    {next : PUnit → Decoder α} {source : Source} :
    (if refused then throw reason >>= next else next ⟨⟩) source = .error e ↔
      (refused ∧ e = reason) ∨ (¬refused ∧ next ⟨⟩ source = .error e) := by
  by_cases given : refused
  · rw [if_pos given]
    constructor
    · intro failed
      cases failed
      exact Or.inl ⟨given, rfl⟩
    · rintro (⟨-, rfl⟩ | ⟨allowed, -⟩)
      · rfl
      · exact absurd given allowed
  · rw [if_neg given]
    constructor
    · exact fun failed => Or.inr ⟨given, failed⟩
    · rintro (⟨refused, -⟩ | ⟨-, failed⟩)
      · exact absurd refused given
      · exact failed

theorem take_ne_error (refusal : e.isRefusal = true) {length : Nat} {source : Source} :
    take length source ≠ .error e := by
  by_cases short : source.bytes.length < length
  · rw [take_eq_error length source short]
    intro same
    exact e.ne_error_of_isRefusal refusal source.ending (Except.error.inj same).symm
  · have found := (take_reads length source (source.bytes.take length)
      ⟨source.bytes.drop length, source.ending⟩).mpr
        ⟨List.length_take_of_le (Nat.not_lt.mp short),
          by rw [Source.prepend, List.take_append_drop]⟩
    rw [found]
    intro read
    cases read

theorem unsigned_ne_error (refusal : e.isRefusal = true) {width : Nat} {source : Source} :
    unsigned width source ≠ .error e := by
  rw [unsigned, ne_eq, bind_eq_error_iff]
  rintro (failed | ⟨_, _, _, failed⟩)
  · exact take_ne_error refusal failed
  · exact pure_ne_error failed

theorem byte_ne_error (refusal : e.isRefusal = true) {source : Source} :
    byte source ≠ .error e := by
  rw [byte, ne_eq, bind_eq_error_iff]
  rintro (failed | ⟨_, _, _, failed⟩)
  · exact unsigned_ne_error refusal failed
  · exact pure_ne_error failed

end Decoder

namespace CompactSize

open Decoder

variable {n : UInt64} {spelling : Bytes}

def fields : List (UInt8 × Nat) := [(0xfd, 2), (0xfe, 4), (0xff, 8)]

/-- The forms in which a number can be spelled, also those longer than necessary. -/
inductive Spells : Bytes → UInt64 → Prop
  | alone {n : UInt64} (small : n < 0xfd) : Spells [n.toUInt8] n
  | behind {n : UInt64} {marker : UInt8} {width : Nat} (known : (marker, width) ∈ fields)
    (room : n.toNat < 256 ^ width) : Spells (marker :: Bytes.littleEndian width n.toNat) n

theorem encodedSize_eq (n : UInt64) :
    encodedSize n = if n.toNat < 0xfd then 1 else if n.toNat < 0x10000 then 3
      else if n.toNat < 0x100000000 then 5 else 9 := rfl

theorem spells_encode (n : UInt64) : Spells (encode n) n := by
  rcases encode_cases n with ⟨small, form⟩ | ⟨⟨-, room⟩, form⟩ | ⟨⟨-, room⟩, form⟩ |
    ⟨⟨-, room⟩, form⟩ <;> rw [form]
  · exact .alone small
  all_goals exact .behind (by decide) room

theorem exists_least {marker : UInt8} {width : Nat} (known : (marker, width) ∈ fields) :
    ∃ least, decodeAfter marker = decodeWide width least ∧ width ≤ 8 ∧
      ∀ n : UInt64, n.toNat < 256 ^ width →
        (n < least → encodedSize n < 1 + width) ∧
          (least ≤ n → encode n = marker :: Bytes.littleEndian width n.toNat) := by
  simp only [fields, List.mem_cons, Prod.mk.injEq, List.not_mem_nil, or_false] at known
  rcases known with ⟨rfl, rfl⟩ | ⟨rfl, rfl⟩ | ⟨rfl, rfl⟩
  · refine ⟨0xfd, rfl, by decide, fun n room => ⟨fun below => ?_, fun least => encode_two least room⟩⟩
    replace below : n.toNat < 0xfd := UInt64.lt_iff_toNat_lt.mp below
    rw [encodedSize_eq, if_pos below]
    decide
  · refine ⟨0x10000, rfl, by decide,
      fun n room => ⟨fun below => ?_, fun least => encode_four least room⟩⟩
    replace below : n.toNat < 0x10000 := UInt64.lt_iff_toNat_lt.mp below
    rw [encodedSize_eq, if_pos below]
    split <;> decide
  · refine ⟨0x100000000, rfl, by decide,
      fun n room => ⟨fun below => ?_, fun least => encode_eight least⟩⟩
    replace below : n.toNat < 0x100000000 := UInt64.lt_iff_toNat_lt.mp below
    rw [encodedSize_eq, if_pos below]
    split
    · decide
    · split <;> decide

theorem Spells.eq_encode_or_longer (spells : Spells spelling n) :
    spelling = encode n ∨ encodedSize n < spelling.length := by
  cases spells with
  | alone small => exact Or.inl (encode_of_lt small).symm
  | @behind _ _ width known room =>
    obtain ⟨least, -, -, forms⟩ := exists_least known
    obtain ⟨shorter, same⟩ := forms n room
    rw [List.length_cons, Bytes.length_littleEndian, Nat.add_comm width]
    by_cases below : n < least
    · exact Or.inr (shorter below)
    · exact Or.inl (same (UInt64.not_lt.mp below)).symm

theorem decodeAfter_cases (first : UInt8) :
    (∃ width, (first, width) ∈ fields) ∨ decodeAfter first = pure first.toUInt64 := by
  unfold decodeAfter
  by_cases two : first = 0xfd
  · exact Or.inl ⟨2, by rw [two]; decide⟩
  by_cases four : first = 0xfe
  · exact Or.inl ⟨4, by rw [four]; decide⟩
  by_cases eight : first = 0xff
  · exact Or.inl ⟨8, by rw [eight]; decide⟩
  rw [if_neg two, if_neg four, if_neg eight]
  exact Or.inr rfl

theorem decodeWide_eq_error_iff {width : Nat} (narrow : width ≤ 8) {least : UInt64}
    {source : Source} :
    decodeWide width least source = .error .nonCanonicalCompactSize ↔
      ∃ (n : UInt64) (rest : Source), n < least ∧ n.toNat < 256 ^ width ∧
        source = rest.prepend (Bytes.littleEndian width n.toNat) := by
  have fits {number : Nat} (small : number < 256 ^ width) : number.toUInt64.toNat = number :=
    UInt64.toNat_ofNat_of_lt' (Nat.lt_of_lt_of_le small (Nat.pow_le_pow_right (by decide) narrow))
  unfold decodeWide
  simp only [bind_eq_error_iff, unless_eq_error_iff, pure_ne_error, unsigned_reads width _ _ _,
    unsigned_ne_error (e := .nonCanonicalCompactSize) rfl, and_true, and_false, or_false, false_or]
  constructor
  · rintro ⟨number, rest, ⟨small, rfl⟩, below⟩
    exact ⟨number.toUInt64, rest, below, by rwa [fits small], by rw [fits small]⟩
  · rintro ⟨n, rest, below, room, rfl⟩
    have same : n.toNat.toUInt64 = n := UInt64.ofNat_toNat
    exact ⟨n.toNat, rest, ⟨room, rfl⟩, by rwa [same]⟩

theorem decodeWide_refusal {e : DecodeError} (refusal : e.isRefusal = true) {width : Nat}
    {least : UInt64} {source : Source} (failed : decodeWide width least source = .error e) :
    e = .nonCanonicalCompactSize := by
  unfold decodeWide at failed
  simp only [bind_eq_error_iff, unless_eq_error_iff, pure_ne_error, unsigned_ne_error refusal,
    and_false, or_false, false_or] at failed
  obtain ⟨_, _, _, -, reason⟩ := failed
  exact reason

theorem decode_refusal {e : DecodeError} (refusal : e.isRefusal = true) {source : Source}
    (failed : decode source = .error e) : e = .nonCanonicalCompactSize := by
  unfold decode at failed
  simp only [bind_eq_error_iff, byte_ne_error refusal, false_or] at failed
  obtain ⟨first, middle, -, failed⟩ := failed
  rcases decodeAfter_cases first with ⟨width, known⟩ | alone
  · obtain ⟨least, after, -, -⟩ := exists_least known
    rw [after] at failed
    exact decodeWide_refusal refusal failed
  · rw [alone] at failed
    exact absurd failed pure_ne_error

theorem decode_eq_error_iff {source : Source} :
    decode source = .error .nonCanonicalCompactSize ↔
      ∃ (spelling : Bytes) (n : UInt64) (rest : Source), Spells spelling n ∧
        encodedSize n < spelling.length ∧ source = rest.prepend spelling := by
  unfold decode
  simp only [bind_eq_error_iff, byte_reads _ _ _, true_and,
    byte_ne_error (e := .nonCanonicalCompactSize) rfl, false_or]
  constructor
  · rintro ⟨first, middle, rfl, failed⟩
    rcases decodeAfter_cases first with ⟨width, known⟩ | alone
    · obtain ⟨least, after, narrow, forms⟩ := exists_least known
      rw [after, decodeWide_eq_error_iff narrow] at failed
      obtain ⟨n, rest, below, room, rfl⟩ := failed
      refine ⟨_, n, rest, .behind known room, ?_, rfl⟩
      rw [List.length_cons, Bytes.length_littleEndian, Nat.add_comm]
      exact (forms n room).1 below
    · rw [alone] at failed
      exact absurd failed pure_ne_error
  · rintro ⟨spelling, n, rest, spells, longer, rfl⟩
    cases spells with
    | alone small =>
      rw [← encode_of_lt small, length_encode] at longer
      exact absurd longer (Nat.lt_irrefl _)
    | @behind _ marker width known room =>
      obtain ⟨least, after, narrow, forms⟩ := exists_least known
      refine ⟨marker, rest.prepend (Bytes.littleEndian width n.toNat), rfl, ?_⟩
      rw [after, decodeWide_eq_error_iff narrow]
      refine ⟨n, rest, UInt64.not_le.mp fun least => ?_, room, rfl⟩
      rw [← (forms n room).2 least, length_encode] at longer
      exact Nat.lt_irrefl _ longer

end CompactSize

namespace SizedBytes

open Decoder

variable {limit n : UInt64} {source : Source}

theorem decode_eq_error_iff :
    decode limit source = .error .nonCanonicalCompactSize ↔
      CompactSize.decode source = .error .nonCanonicalCompactSize := by
  unfold decode
  simp only [bind_eq_error_iff, unless_eq_error_iff,
    take_ne_error (e := .nonCanonicalCompactSize) rfl, reduceCtorEq, and_false, or_false,
    exists_false]

theorem decode_eq_scriptTooLarge_iff :
    decode limit source = .error (.scriptTooLarge n) ↔
      limit < n ∧ ∃ rest : Source, source = rest.prepend (CompactSize.encode n) := by
  have counted : CompactSize.decode source ≠ .error (.scriptTooLarge n) := by
    intro failed
    cases CompactSize.decode_refusal rfl failed
  unfold decode
  simp only [bind_eq_error_iff, counted, unless_eq_error_iff, CompactSize.decode_reads _ _ _,
    take_ne_error (e := .scriptTooLarge n) rfl, DecodeError.scriptTooLarge.injEq, and_false,
    or_false, false_or, true_and]
  constructor
  · rintro ⟨count, rest, rfl, large, rfl⟩
    exact ⟨large, rest, rfl⟩
  · rintro ⟨large, rest, rfl⟩
    exact ⟨n, rest, rfl, large, rfl⟩

end SizedBytes

/-- A decoder and an encoding that begins with a number, where each value allowed has one
encoding. -/
structure Canonical {α : Type} (decoder : Decoder α) (encode : α → Bytes) (size : α → Nat)
    (allowed : α → Prop) : Prop where
  /-- What is written is read, and what follows it is left. -/
  reads_back : ∀ a, allowed a → ∀ rest ending,
    decoder ⟨encode a ++ rest, ending⟩ = .ok (a, ⟨rest, ending⟩)
  length : ∀ a, allowed a → (encode a).length = size a
  /-- What was taken for a value is what is written for it. -/
  consumed : ∀ bytes ending a source, decoder ⟨bytes, ending⟩ = .ok (a, source) →
    allowed a ∧ bytes = encode a ++ source.bytes ∧ source.ending = ending
  unique : ∀ a bytes, decoder (.ofBytes bytes) = .ok (a, .ofBytes []) ↔
    allowed a ∧ bytes = encode a
  /-- Just the numbers in longer forms than necessary are refused for that. -/
  longer : ∀ source, decoder source = .error .nonCanonicalCompactSize ↔
    ∃ (spelling : Bytes) (n : UInt64) (rest : Source), CompactSize.Spells spelling n ∧
      CompactSize.encodedSize n < spelling.length ∧ source = rest.prepend spelling

theorem Decoder.Reads.canonical {α : Type} {decoder : Decoder α} {encode : α → Bytes}
    {size : α → Nat} {allowed : α → Prop} (reads : Reads decoder encode allowed)
    (length : ∀ a, (encode a).length = size a)
    (longer : ∀ source, decoder source = .error .nonCanonicalCompactSize ↔
      CompactSize.decode source = .error .nonCanonicalCompactSize) :
    Canonical decoder encode size allowed where
  reads_back a within rest ending := (reads _ a ⟨rest, ending⟩).mpr ⟨within, rfl⟩
  length a _ := length a
  consumed bytes ending a source read := by
    obtain ⟨within, form⟩ := (reads _ a source).mp read
    obtain ⟨rfl, rfl⟩ := Source.mk.inj form
    exact ⟨within, rfl, rfl⟩
  unique a bytes := by
    rw [reads, Source.ofBytes_eq_prepend_iff, Source.ofBytes]
    simp only [List.append_nil, and_true]
  longer source := (longer source).trans CompactSize.decode_eq_error_iff

/-- Numbers and strings have one encoding each, which is read back with whatever follows it; no
other bytes are taken for them. The forms of a number that are longer than what is written are
all refused as such, in front of a string too. A length above the limit is refused whatever
stands behind it, and also where the source fails as soon as anything behind it is asked for. -/
theorem sizes_canonical :
    Canonical CompactSize.decode CompactSize.encode CompactSize.encodedSize (fun _ => True) ∧
    (∀ limit : UInt64, Canonical (SizedBytes.decode limit) SizedBytes.encode
      SizedBytes.encodedSize fun bytes => bytes.length ≤ limit.toNat) ∧
    (∀ n, CompactSize.Spells (CompactSize.encode n) n ∧ ∀ spelling, CompactSize.Spells spelling n →
      spelling = CompactSize.encode n ∨ CompactSize.encodedSize n < spelling.length) ∧
    (∀ limit n source, SizedBytes.decode limit source = .error (.scriptTooLarge n) ↔
      limit < n ∧ ∃ rest : Source, source = rest.prepend (CompactSize.encode n)) := by
  refine ⟨CompactSize.decode_reads.canonical CompactSize.length_encode fun _ => Iff.rfl,
    fun limit => (SizedBytes.decode_reads limit).canonical SizedBytes.length_encode fun _ =>
      SizedBytes.decode_eq_error_iff, fun n => ⟨CompactSize.spells_encode n, ?_⟩,
    fun limit n source => SizedBytes.decode_eq_scriptTooLarge_iff⟩
  exact fun spelling spells => spells.eq_encode_or_longer

def longerThanNecessary : Bytes := [0xfe, 0xff, 0xff, 0x00, 0x00]

theorem sizes_canonical_longer :
    CompactSize.decode (.ofBytes longerThanNecessary) = .error .nonCanonicalCompactSize ∧
    SizedBytes.decode 0xffffffff (.ofBytes longerThanNecessary) =
      .error .nonCanonicalCompactSize ∧
    SizedBytes.decode 9 ⟨[10], .failure "closed"⟩ = .error (.scriptTooLarge 10) := by
  obtain ⟨numbers, strings, longer, tooLarge⟩ := sizes_canonical
  have spells : CompactSize.Spells longerThanNecessary 0xffff := by
    change CompactSize.Spells (0xfe :: Bytes.littleEndian 4 (0xffff : UInt64).toNat) 0xffff
    exact .behind (by decide) (by decide)
  have more := ((longer _).2 _ spells).resolve_left (by decide)
  refine ⟨(numbers.longer _).mpr ⟨_, _, .ofBytes [], spells, more, rfl⟩,
    ((strings _).longer _).mpr ⟨_, _, .ofBytes [], spells, more, rfl⟩, ?_⟩
  exact (tooLarge _ _ _).mpr ⟨by decide, ⟨[], .failure "closed"⟩, rfl⟩

end BitcoinSigning
