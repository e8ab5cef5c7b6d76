import BitcoinSigning.Proofs.Encoding.Reading
/-!
Counts and byte strings are read exactly as they are written. The first byte of a
count tells its width, and the least number that a width may hold is one more than
the greatest of the width below; so the ranges of the writer and of the reader meet.
-/

namespace BitcoinSigning

attribute [local instance (high)] instPowNat

theorem Source.prepend_cons_iff {first head : UInt8} {tail : Bytes} {source rest : Source} :
    source.prepend [first] = rest.prepend (head :: tail) ↔
      first = head ∧ source = rest.prepend tail := by
  cases source
  simp only [Source.prepend, List.cons_append, List.nil_append, mk.injEq, List.cons.injEq,
    and_assoc]

namespace CompactSize

open Decoder

variable {n : UInt64}

/-! The form of a number. -/

theorem encode_of_lt (small : n < 0xfd) : encode n = [n.toUInt8] := if_pos small

theorem encode_two (least : 0xfd ≤ n) (small : n.toNat < 256 ^ (2 : Nat)) :
    encode n = 0xfd :: Bytes.littleEndian 2 n.toNat := by
  rw [encode, if_neg (UInt64.not_lt.mpr least), if_pos (UInt64.lt_iff_toNat_lt.mpr small)]

theorem encode_four (least : 0x10000 ≤ n) (small : n.toNat < 256 ^ (4 : Nat)) :
    encode n = 0xfe :: Bytes.littleEndian 4 n.toNat := by
  have notOne : ¬n < 0xfd := UInt64.not_lt.mpr (UInt64.le_trans (by decide) least)
  rw [encode, if_neg notOne, if_neg (UInt64.not_lt.mpr least),
    if_pos (UInt64.lt_iff_toNat_lt.mpr small)]

theorem encode_eight (least : 0x100000000 ≤ n) :
    encode n = 0xff :: Bytes.littleEndian 8 n.toNat := by
  have notOne : ¬n < 0xfd := UInt64.not_lt.mpr (UInt64.le_trans (by decide) least)
  have notTwo : ¬n < 0x10000 := UInt64.not_lt.mpr (UInt64.le_trans (by decide) least)
  rw [encode, if_neg notOne, if_neg notTwo, if_neg (UInt64.not_lt.mpr least)]

theorem encode_cases (n : UInt64) :
    (n < 0xfd ∧ encode n = [n.toUInt8]) ∨
    ((0xfd ≤ n ∧ n.toNat < 256 ^ (2 : Nat)) ∧ encode n = 0xfd :: Bytes.littleEndian 2 n.toNat) ∨
    ((0x10000 ≤ n ∧ n.toNat < 256 ^ (4 : Nat)) ∧ encode n = 0xfe :: Bytes.littleEndian 4 n.toNat) ∨
    ((0x100000000 ≤ n ∧ n.toNat < 256 ^ (8 : Nat)) ∧
      encode n = 0xff :: Bytes.littleEndian 8 n.toNat) := by
  by_cases one : n < 0xfd
  · exact Or.inl ⟨one, encode_of_lt one⟩
  have least := UInt64.not_lt.mp one
  by_cases two : n.toNat < 256 ^ (2 : Nat)
  · exact Or.inr (Or.inl ⟨⟨least, two⟩, encode_two least two⟩)
  have least : 0x10000 ≤ n := UInt64.le_iff_toNat_le.mpr (Nat.not_lt.mp two)
  by_cases four : n.toNat < 256 ^ (4 : Nat)
  · exact Or.inr (Or.inr (Or.inl ⟨⟨least, four⟩, encode_four least four⟩))
  have least : 0x100000000 ≤ n := UInt64.le_iff_toNat_le.mpr (Nat.not_lt.mp four)
  exact Or.inr (Or.inr (Or.inr ⟨⟨least, n.toNat_lt⟩, encode_eight least⟩))

theorem toUInt64_lt_of_ne {first : UInt8} (notTwo : first ≠ 0xfd) (notFour : first ≠ 0xfe)
    (notEight : first ≠ 0xff) : first.toUInt64 < 0xfd := by
  have small := first.toNat_lt
  rw [ne_eq, ← UInt8.toNat_inj] at notTwo notFour notEight
  rw [UInt64.lt_iff_toNat_lt, UInt8.toNat_toUInt64]
  change first.toNat ≠ 253 at notTwo
  change first.toNat ≠ 254 at notFour
  change first.toNat ≠ 255 at notEight
  change first.toNat < 253
  omega

theorem toUInt8_toUInt64 (small : n < 0xfd) : n.toUInt8.toUInt64 = n := by
  have small : n.toNat < 253 := UInt64.lt_iff_toNat_lt.mp small
  rw [← UInt64.toNat_inj, UInt8.toNat_toUInt64, UInt64.toNat_toUInt8]
  omega

theorem toUInt8_lt (small : n < 0xfd) : n.toUInt8 < 0xfd := by
  have small : n.toNat < 253 := UInt64.lt_iff_toNat_lt.mp small
  rw [UInt8.lt_iff_toNat_lt, UInt64.toNat_toUInt8]
  change n.toNat % 256 < 253
  omega

theorem encode_zero : encode 0 = [0] := rfl

theorem exists_encode_eq_cons (n : UInt64) :
    ∃ first rest, encode n = first :: rest ∧ (first = 0 → n = 0) := by
  rcases encode_cases n with ⟨small, form⟩ | ⟨-, form⟩ | ⟨-, form⟩ | ⟨-, form⟩
  · refine ⟨_, _, form, fun zero => ?_⟩
    rw [← toUInt8_toUInt64 small, zero]
    rfl
  all_goals exact ⟨_, _, form, fun zero => absurd zero (by decide)⟩

/-! Reading. -/

theorem decodeWide_reads {width : Nat} (narrow : width ≤ 8) (least : UInt64) :
    Reads (decodeWide width least) (fun n => Bytes.littleEndian width n.toNat)
      fun n => least ≤ n ∧ n.toNat < 256 ^ width := by
  have fits {number : Nat} (small : number < 256 ^ width) : number.toUInt64.toNat = number :=
    UInt64.toNat_ofNat_of_lt' (Nat.lt_of_lt_of_le small (Nat.pow_le_pow_right (by decide) narrow))
  intro source n rest
  unfold decodeWide
  simp only [bind_eq_ok_iff, unless_eq_ok_iff, pure_eq_ok_iff, unsigned_reads width _ _ _]
  constructor
  · rintro ⟨number, middle, ⟨small, rfl⟩, enough, rfl, rfl⟩
    rw [fits small]
    exact ⟨⟨UInt64.not_lt.mp enough, small⟩, rfl⟩
  · rintro ⟨⟨enough, small⟩, rfl⟩
    have same : n.toNat.toUInt64 = n := UInt64.ofNat_toNat
    exact ⟨n.toNat, rest, ⟨small, rfl⟩, by rwa [same, UInt64.not_lt], same, rfl⟩

theorem encode_of_decodeWide {marker : UInt8} {width : Nat} {least : UInt64} {source rest : Source}
    (narrow : width ≤ 8)
    (form : least ≤ n → n.toNat < 256 ^ width → encode n = marker :: Bytes.littleEndian width n.toNat)
    (read : decodeWide width least source = .ok (n, rest)) :
    source.prepend [marker] = rest.prepend (encode n) := by
  obtain ⟨⟨enough, small⟩, rfl⟩ := (decodeWide_reads narrow least source n rest).mp read
  rw [form enough small]
  rfl

theorem decodeAfter_eq_ok_iff {first : UInt8} {source rest : Source} :
    decodeAfter first source = .ok (n, rest) ↔
      source.prepend [first] = rest.prepend (encode n) := by
  unfold decodeAfter
  constructor
  · intro read
    by_cases two : first = 0xfd
    · rw [if_pos two] at read
      exact two ▸ encode_of_decodeWide (by decide) encode_two read
    rw [if_neg two] at read
    by_cases four : first = 0xfe
    · rw [if_pos four] at read
      exact four ▸ encode_of_decodeWide (by decide) encode_four read
    rw [if_neg four] at read
    by_cases eight : first = 0xff
    · rw [if_pos eight] at read
      exact eight ▸ encode_of_decodeWide (by decide) (fun least _ => encode_eight least) read
    rw [if_neg eight, pure_eq_ok_iff] at read
    obtain ⟨rfl, rfl⟩ := read
    rw [encode_of_lt (toUInt64_lt_of_ne two four eight), UInt8.toUInt8_toUInt64]
  · intro written
    rcases encode_cases n with ⟨small, form⟩ | ⟨range, form⟩ | ⟨range, form⟩ | ⟨range, form⟩
    all_goals
      rw [form, Source.prepend_cons_iff] at written
      obtain ⟨rfl, rfl⟩ := written
    · have below : n.toUInt8.toNat < 253 := UInt8.lt_iff_toNat_lt.mp (toUInt8_lt small)
      have other (marker : UInt8) (above : 253 ≤ marker.toNat) : n.toUInt8 ≠ marker := by
        rintro rfl
        omega
      rw [if_neg (other _ (by decide)), if_neg (other _ (by decide)), if_neg (other _ (by decide)),
        pure_eq_ok_iff]
      exact ⟨toUInt8_toUInt64 small, rfl⟩
    all_goals exact (decodeWide_reads (by decide) _ _ _ _).mpr ⟨range, rfl⟩

theorem decode_reads : Reads decode encode fun _ => True := by
  intro source n rest
  unfold decode
  simp only [bind_eq_ok_iff, decodeAfter_eq_ok_iff, byte_reads _ _ _, true_and]
  constructor
  · rintro ⟨first, middle, rfl, written⟩
    exact written
  · intro written
    obtain ⟨first, others, form, -⟩ := exists_encode_eq_cons n
    rw [form] at written ⊢
    exact ⟨first, rest.prepend others, written, rfl⟩

end CompactSize

theorem CompactSize.announces_iff {limit count : UInt64} {length : Nat} :
    ¬limit < count ∧ length = count.toNat ↔ length ≤ limit.toNat ∧ count = length.toUInt64 := by
  rw [UInt64.not_lt, UInt64.le_iff_toNat_le]
  constructor
  · rintro ⟨few, rfl⟩
    exact ⟨few, UInt64.ofNat_toNat.symm⟩
  · rintro ⟨few, rfl⟩
    have counted : length.toUInt64.toNat = length :=
      UInt64.toNat_ofNat_of_lt' (Nat.lt_of_le_of_lt few limit.toNat_lt)
    exact ⟨counted.symm ▸ few, counted.symm⟩

theorem SizedBytes.decode_reads (limit : UInt64) :
    Decoder.Reads (decode limit) encode fun bytes => bytes.length ≤ limit.toNat := by
  intro source bytes rest
  unfold decode encode
  simp only [Decoder.bind_eq_ok_iff, Decoder.unless_eq_ok_iff, CompactSize.decode_reads _ _ _,
    Decoder.take_reads _ _ _ _, true_and, Source.prepend_append]
  constructor
  · rintro ⟨count, _, rfl, few, length, rfl⟩
    obtain ⟨within, rfl⟩ := CompactSize.announces_iff.mp ⟨few, length⟩
    exact ⟨within, rfl⟩
  · rintro ⟨within, rfl⟩
    obtain ⟨few, length⟩ := CompactSize.announces_iff.mpr ⟨within, rfl⟩
    exact ⟨_, _, rfl, few, length, rfl⟩

end BitcoinSigning
