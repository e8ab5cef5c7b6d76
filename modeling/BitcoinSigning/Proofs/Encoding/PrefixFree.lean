import BitcoinSigning.Proofs.Encoding.CompactSizeReading
/-!
Encodings that can be told apart without reading them. Parts are written one after
another with nothing between them, so what matters is not only that two values have
different bytes, but that a value can be told from its bytes and any that follow.
-/

namespace BitcoinSigning

/-- No two of the values allowed have encodings of which one begins with the other. -/
def PrefixFree {α : Type} (encode : α → Bytes) (allowed : α → Prop) : Prop :=
  ∀ ⦃a b : α⦄, allowed a → allowed b → ∀ ⦃x y : Bytes⦄,
    encode a ++ x = encode b ++ y → a = b ∧ x = y

variable {α : Type} {encode : α → Bytes} {allowed : α → Prop}

theorem Decoder.Reads.prefixFree {decoder : Decoder α} (reads : Reads decoder encode allowed) :
    PrefixFree encode allowed := by
  intro a b allowedA allowedB x y same
  have readA := (reads ⟨encode a ++ x, .endOfData⟩ a ⟨x, .endOfData⟩).mpr ⟨allowedA, rfl⟩
  have readB := (reads ⟨encode b ++ y, .endOfData⟩ b ⟨y, .endOfData⟩).mpr ⟨allowedB, rfl⟩
  rw [same, readB] at readA
  cases readA
  exact ⟨rfl, rfl⟩

namespace PrefixFree

theorem eq_of_encode_eq (free : PrefixFree encode allowed) {a b : α} (allowedA : allowed a)
    (allowedB : allowed b) (same : encode a = encode b) : a = b :=
  (free allowedA allowedB (congrArg (· ++ []) same)).1

theorem flatMap (free : PrefixFree encode allowed) (count : Nat) :
    PrefixFree (fun list : List α => list.flatMap encode)
      fun list => list.length = count ∧ ∀ a ∈ list, allowed a := by
  induction count with
  | zero =>
    intro as bs ⟨noneA, _⟩ ⟨noneB, _⟩ x y same
    obtain rfl := List.eq_nil_of_length_eq_zero noneA
    obtain rfl := List.eq_nil_of_length_eq_zero noneB
    exact ⟨rfl, same⟩
  | succ count ih =>
    intro as bs ⟨lengthA, eachA⟩ ⟨lengthB, eachB⟩ x y same
    obtain ⟨a, as, rfl⟩ := List.exists_cons_of_length_eq_add_one lengthA
    obtain ⟨b, bs, rfl⟩ := List.exists_cons_of_length_eq_add_one lengthB
    obtain ⟨allowedA, othersA⟩ := List.forall_mem_cons.mp eachA
    obtain ⟨allowedB, othersB⟩ := List.forall_mem_cons.mp eachB
    simp only [List.flatMap_cons, List.append_assoc] at same
    obtain ⟨rfl, rest⟩ := free allowedA allowedB same
    obtain ⟨rfl, rfl⟩ := ih ⟨Nat.succ.inj lengthA, othersA⟩ ⟨Nat.succ.inj lengthB, othersB⟩ rest
    exact ⟨rfl, rfl⟩

/-- Lists of any lengths can be told apart when nothing follows them, if each of
their values takes at least one byte. -/
theorem eq_of_flatMap_eq (free : PrefixFree encode allowed) (nonempty : ∀ a, encode a ≠ [])
    {as bs : List α} (eachA : ∀ a ∈ as, allowed a) (eachB : ∀ b ∈ bs, allowed b)
    (same : as.flatMap encode = bs.flatMap encode) : as = bs := by
  induction as generalizing bs with
  | nil =>
    cases bs with
    | nil => rfl
    | cons b bs =>
      rw [List.flatMap_cons] at same
      exact absurd (List.append_eq_nil_iff.mp same.symm).1 (nonempty b)
  | cons a as ih =>
    cases bs with
    | nil =>
      rw [List.flatMap_cons] at same
      exact absurd (List.append_eq_nil_iff.mp same).1 (nonempty a)
    | cons b bs =>
      obtain ⟨allowedA, othersA⟩ := List.forall_mem_cons.mp eachA
      obtain ⟨allowedB, othersB⟩ := List.forall_mem_cons.mp eachB
      rw [List.flatMap_cons, List.flatMap_cons] at same
      obtain ⟨rfl, rest⟩ := free allowedA allowedB same
      rw [ih othersA othersB rest]

theorem flatMap_field_eq_iff {β : Type} (free : PrefixFree encode fun _ => True)
    (nonempty : ∀ a, encode a ≠ []) (field : β → α) {xs ys : List β} :
    (xs.flatMap fun x => encode (field x)) = (ys.flatMap fun y => encode (field y)) ↔
      xs.map field = ys.map field := by
  have parts (list : List β) :
      (list.flatMap fun x => encode (field x)) = (list.map field).flatMap encode :=
    (List.flatMap_map field encode list).symm
  rw [parts, parts]
  constructor
  · exact free.eq_of_flatMap_eq nonempty (fun _ _ => trivial) (fun _ _ => trivial)
  · exact congrArg fun list => List.flatMap encode list

theorem counted (free : PrefixFree encode allowed) :
    PrefixFree (fun list : List α => CompactSize.encode list.length.toUInt64 ++ list.flatMap encode)
      fun list => list.length < UInt64.size ∧ ∀ a ∈ list, allowed a := by
  intro as bs ⟨fitsA, eachA⟩ ⟨fitsB, eachB⟩ x y same
  simp only [List.append_assoc] at same
  obtain ⟨count, rest⟩ := CompactSize.decode_reads.prefixFree trivial trivial same
  have lengths : as.length = bs.length := by
    rw [← UInt64.toNat_ofNat_of_lt' fitsA, ← UInt64.toNat_ofNat_of_lt' fitsB]
    exact congrArg UInt64.toNat count
  exact free.flatMap bs.length ⟨lengths, eachA⟩ ⟨rfl, eachB⟩ rest

end PrefixFree

theorem SizedBytes.encode_prefixFree :
    PrefixFree SizedBytes.encode fun bytes => bytes.length < UInt64.size := by
  intro a b fitsA fitsB
  exact (SizedBytes.decode_reads 0xffffffffffffffff).prefixFree
    (Nat.le_of_lt_succ fitsA) (Nat.le_of_lt_succ fitsB)

end BitcoinSigning
