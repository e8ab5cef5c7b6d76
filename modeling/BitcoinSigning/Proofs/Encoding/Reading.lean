import BitcoinSigning.Encoding.CompactSize
/-!
When a decoder succeeds. A decoder and an encoding belong together if what the
decoder takes off the front of a source is always the encoding of the value that it
gives, and if it takes every such encoding: then each value has one encoding, and no
other bytes pass for it.
-/

namespace BitcoinSigning

attribute [local instance (high)] instPowNat

namespace Source

def prepend (rest : Source) (bytes : Bytes) : Source := ⟨bytes ++ rest.bytes, rest.ending⟩

theorem prepend_nil (rest : Source) : rest.prepend [] = rest := rfl

theorem prepend_append (rest : Source) (first second : Bytes) :
    rest.prepend (first ++ second) = (rest.prepend second).prepend first := by
  rw [prepend, List.append_assoc]
  rfl

theorem ofBytes_eq_prepend_iff (bytes encoded : Bytes) (rest : Source) :
    ofBytes bytes = rest.prepend encoded ↔
      bytes = encoded ++ rest.bytes ∧ rest.ending = .endOfData := by
  rw [ofBytes, prepend, mk.injEq]
  exact and_congr_right fun _ => eq_comm

end Source

namespace Decoder

variable {α β : Type}

theorem bind_eq_ok_iff {first : Decoder α} {next : α → Decoder β} {source rest : Source} {b : β} :
    (first >>= next) source = .ok (b, rest) ↔
      ∃ a middle, first source = .ok (a, middle) ∧ next a middle = .ok (b, rest) := by
  cases read : first source with
  | error e =>
    rw [bind_of_error read]
    constructor
    · intro failed
      cases failed
    · rintro ⟨_, _, found, _⟩
      cases found
  | ok found =>
    obtain ⟨a, middle⟩ := found
    rw [bind_of_ok read]
    constructor
    · intro followed
      exact ⟨a, middle, rfl, followed⟩
    · rintro ⟨_, _, found, followed⟩
      cases found
      exact followed

theorem pure_eq_ok_iff {a b : α} {source rest : Source} :
    (pure a : Decoder α) source = .ok (b, rest) ↔ a = b ∧ source = rest := by
  change Except.ok (a, source) = Except.ok (b, rest) ↔ _
  rw [Except.ok.injEq, Prod.mk.injEq]

theorem ite_bind {chosen : Prop} [Decidable chosen] (first second : Decoder α)
    (next : α → Decoder β) :
    (if chosen then first >>= next else second >>= next) =
      (if chosen then first else second) >>= next :=
  (apply_ite (· >>= next) chosen first second).symm

theorem unless_eq_ok_iff {refused : Prop} [Decidable refused] {e : DecodeError}
    {next : PUnit → Decoder α} {source rest : Source} {a : α} :
    (if refused then throw e >>= next else next ⟨⟩) source = .ok (a, rest) ↔
      ¬refused ∧ next ⟨⟩ source = .ok (a, rest) := by
  by_cases given : refused
  · rw [if_pos given]
    constructor
    · intro failed
      cases failed
    · rintro ⟨allowed, -⟩
      exact absurd given allowed
  · rw [if_neg given]
    exact (and_iff_right given).symm

/-- The decoder reads the encodings of the values allowed, and nothing else. -/
def Reads (decoder : Decoder α) (encode : α → Bytes) (allowed : α → Prop) : Prop :=
  ∀ source a rest,
    decoder source = .ok (a, rest) ↔ allowed a ∧ source = rest.prepend (encode a)

theorem take_reads (length : Nat) :
    Reads (take length) (fun bytes => bytes) fun bytes => bytes.length = length := by
  intro source bytes rest
  constructor
  · intro read
    by_cases short : source.bytes.length < length
    · rw [take_eq_error length source short] at read
      cases read
    have enough : (source.bytes.take length).length = length :=
      List.length_take_of_le (Nat.not_lt.mp short)
    rw [take, bind_of_ok (dif_pos enough)] at read
    cases read
    exact ⟨enough, by rw [Source.prepend, List.take_append_drop]⟩
  · rintro ⟨rfl, rfl⟩
    exact take_append bytes rest.bytes rest.ending

theorem exactly_eq_ok_iff {length : Nat} {source rest : Source}
    {found : { bytes : Bytes // bytes.length = length }} :
    exactly length source = .ok (found, rest) ↔ source = rest.prepend found.val := by
  have taken : exactly length source = .ok (found, rest) ↔
      take length source = .ok (found.val, rest) := by
    unfold take
    simp only [bind_eq_ok_iff, pure_eq_ok_iff]
    constructor
    · intro read
      exact ⟨found, rest, read, rfl, rfl⟩
    · rintro ⟨other, middle, read, same, rfl⟩
      rw [read, Subtype.ext same]
  rw [taken, take_reads length source found.val rest, and_iff_right found.property]

theorem unsigned_reads (width : Nat) :
    Reads (unsigned width) (Bytes.littleEndian width) fun number => number < 256 ^ width := by
  intro source number rest
  constructor
  · intro read
    rw [unsigned, bind_eq_ok_iff] at read
    obtain ⟨bytes, middle, taken, given⟩ := read
    obtain ⟨length, rfl⟩ := (take_reads width source bytes middle).mp taken
    obtain ⟨rfl, rfl⟩ := pure_eq_ok_iff.mp given
    subst length
    exact ⟨Bytes.ofLittleEndian_lt bytes, by rw [Bytes.littleEndian_ofLittleEndian]⟩
  · rintro ⟨small, rfl⟩
    exact unsigned_append width number small rest.bytes rest.ending

theorem map_unsigned_reads {width : Nat} {ofNat : Nat → α} {toNat : α → Nat}
    (small : ∀ a, toNat a < 256 ^ width) (ofNat_toNat : ∀ a, ofNat (toNat a) = a)
    (toNat_ofNat : ∀ number < 256 ^ width, toNat (ofNat number) = number) :
    Reads (do return ofNat (← unsigned width)) (fun a => Bytes.littleEndian width (toNat a))
      fun _ => True := by
  intro source a rest
  simp only [bind_eq_ok_iff, pure_eq_ok_iff, unsigned_reads width _ _ _, true_and]
  constructor
  · rintro ⟨number, middle, ⟨within, rfl⟩, rfl, rfl⟩
    rw [toNat_ofNat number within]
  · rintro rfl
    exact ⟨toNat a, rest, ⟨small a, rfl⟩, ofNat_toNat a, rfl⟩

theorem byte_reads : Reads byte (fun first => [first]) fun _ => True := by
  have whole (first : UInt8) : Bytes.littleEndian 1 first.toNat = [first] :=
    congrArg (fun byte => [byte]) UInt8.ofNat_toNat
  have read : Reads byte (fun first => Bytes.littleEndian 1 first.toNat) fun _ => True :=
    map_unsigned_reads UInt8.toNat_lt (fun _ => UInt8.ofNat_toNat)
      fun _ small => UInt8.toNat_ofNat_of_lt' small
  simp only [whole] at read
  exact read

theorem uint32_reads :
    Reads uint32 (fun word => Bytes.littleEndian 4 word.toNat) fun _ => True :=
  map_unsigned_reads UInt32.toNat_lt (fun _ => UInt32.ofNat_toNat)
    fun _ small => UInt32.toNat_ofNat_of_lt' small

theorem uint64_reads :
    Reads uint64 (fun word => Bytes.littleEndian 8 word.toNat) fun _ => True :=
  map_unsigned_reads UInt64.toNat_lt (fun _ => UInt64.ofNat_toNat)
    fun _ small => UInt64.toNat_ofNat_of_lt' small

theorem bytes32_reads : Reads bytes32 Bytes32.bytes fun _ => True := by
  intro source value rest
  unfold bytes32
  simp only [bind_eq_ok_iff, pure_eq_ok_iff, exactly_eq_ok_iff, true_and]
  constructor
  · rintro ⟨found, middle, rfl, rfl, rfl⟩
    rfl
  · rintro rfl
    exact ⟨⟨value.bytes, value.length_eq⟩, rest, rfl, rfl, rfl⟩

theorem times_reads {item : Decoder α} {encode : α → Bytes} {allowed : α → Prop}
    (reads : Reads item encode allowed) (count : Nat) :
    Reads (times count item) (fun list => list.flatMap encode)
      fun list => list.length = count ∧ ∀ a ∈ list, allowed a := by
  induction count with
  | zero =>
    intro source list rest
    rw [times_zero, pure_eq_ok_iff]
    constructor
    · rintro ⟨rfl, rfl⟩
      exact ⟨⟨rfl, List.forall_mem_nil allowed⟩, rfl⟩
    · rintro ⟨⟨length, -⟩, rfl⟩
      obtain rfl := List.eq_nil_of_length_eq_zero length
      exact ⟨rfl, rfl⟩
  | succ count ih =>
    intro source list rest
    rw [times_succ]
    simp only [bind_eq_ok_iff, pure_eq_ok_iff, reads _ _ _, ih _ _ _]
    constructor
    · rintro ⟨a, middle, ⟨first, rfl⟩, others, _, ⟨⟨rfl, each⟩, rfl⟩, rfl, rfl⟩
      exact ⟨⟨rfl, List.forall_mem_cons.mpr ⟨first, each⟩⟩,
        by rw [List.flatMap_cons, Source.prepend_append]⟩
    · rintro ⟨⟨length, each⟩, rfl⟩
      obtain ⟨a, others, rfl⟩ := List.exists_cons_of_length_eq_add_one length
      obtain ⟨first, each⟩ := List.forall_mem_cons.mp each
      rw [List.flatMap_cons, Source.prepend_append]
      exact ⟨a, _, ⟨first, rfl⟩, others, rest, ⟨⟨Nat.succ.inj length, each⟩, rfl⟩, rfl, rfl⟩

end Decoder

end BitcoinSigning
