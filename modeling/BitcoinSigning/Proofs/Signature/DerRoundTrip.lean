import BitcoinSigning.Signature.Der
/-!
What is encoded strictly is read back. An integer loses its leading zeros, and
one zero is put in front where the number would be empty or negative without it;
the two lengths then tell where everything lies.
-/

namespace BitcoinSigning.Der

/-! Integers. -/

/-- The bytes from the first one on that is not zero. -/
def significant (value : Bytes) : Bytes := value.dropWhile (· == 0)

theorem significant_zero_cons (rest : Bytes) : significant (0 :: rest) = significant rest := by
  unfold significant
  exact List.dropWhile_cons_of_pos (by decide)

theorem significant_cons {first : UInt8} (nonzero : first ≠ 0) (rest : Bytes) :
    significant (first :: rest) = first :: rest := by
  unfold significant
  exact List.dropWhile_cons_of_neg (by rwa [beq_iff_eq])

theorem length_significant_le (value : Bytes) : (significant value).length ≤ value.length :=
  (List.dropWhile_sublist _).length_le

theorem replicate_append_significant (value : Bytes) :
    List.replicate (value.length - (significant value).length) 0 ++ significant value = value := by
  induction value with
  | nil => rfl
  | cons first rest ih =>
    by_cases zero : first = 0
    · subst zero
      rw [significant_zero_cons, List.length_cons, Nat.succ_sub (length_significant_le rest),
        List.replicate_succ, List.cons_append, ih]
    · rw [significant_cons zero, Nat.sub_self, List.replicate_zero, List.nil_append]

theorem significant_ne_zero_cons (value rest : Bytes) : significant value ≠ 0 :: rest := by
  induction value with
  | nil => exact nofun
  | cons first tail ih =>
    by_cases zero : first = 0
    · rw [zero, significant_zero_cons]
      exact ih
    · rw [significant_cons zero]
      intro same
      exact zero (List.cons.inj same).1

theorem integerBody_cases (value : Bytes) :
    (significant value = [] ∧ integerBody value = [0]) ∨
    ∃ first rest, significant value = first :: rest ∧ first ≠ 0 ∧
      ((isNegativeByte first = true ∧ integerBody value = 0 :: first :: rest) ∨
        (isNegativeByte first = false ∧ integerBody value = first :: rest)) := by
  unfold integerBody
  rw [← significant]
  cases form : significant value with
  | nil => exact Or.inl ⟨rfl, rfl⟩
  | cons first rest =>
    have nonzero : first ≠ 0 := by
      rintro rfl
      exact significant_ne_zero_cons value rest form
    refine Or.inr ⟨first, rest, rfl, nonzero, ?_⟩
    cases sign : isNegativeByte first with
    | true => exact Or.inl ⟨rfl, if_pos sign⟩
    | false => exact Or.inr ⟨rfl, if_neg (Bool.eq_false_iff.mp sign)⟩

theorem length_integerBody (value : Bytes) :
    1 ≤ (integerBody value).length ∧ (integerBody value).length ≤ value.length + 1 := by
  have shorter := length_significant_le value
  rcases integerBody_cases value with ⟨-, body⟩ | ⟨first, rest, form, -, ⟨-, body⟩ | ⟨-, body⟩⟩
  · rw [body, List.length_singleton]
    omega
  · rw [form] at shorter
    rw [body, List.length_cons]
    omega
  · rw [form, List.length_cons] at shorter
    rw [body, List.length_cons]
    omega

theorem checkInteger_integerBody (value : Bytes) :
    checkInteger integerTag (integerBody value) = .ok () := by
  unfold checkInteger
  rw [if_neg fun different => different rfl]
  rcases integerBody_cases value with
    ⟨-, body⟩ | ⟨first, rest, -, nonzero, ⟨negative, body⟩ | ⟨positive, body⟩⟩
  · rw [body]
    rfl
  · have needed : ¬((0 : UInt8) = 0 ∧ isNegativeByte first = false) := by
      rw [negative]
      exact fun both => nomatch both.2
    rw [body]
    exact (if_neg (by decide)).trans (if_neg needed)
  · have notNegative := Bool.eq_false_iff.mp positive
    rw [body]
    cases rest with
    | nil => exact if_neg notNegative
    | cons second rest => exact (if_neg notNegative).trans (if_neg fun both => nonzero both.1)

theorem integerValue_of_magnitude {body : Bytes} {value : Bytes32} (count : Nat)
    (padded : List.replicate count 0 ++ magnitude body = value.bytes) :
    integerValue body = .ok value := by
  have length := congrArg List.length padded
  rw [List.length_append, List.length_replicate, value.length_eq] at length
  obtain rfl : count = 32 - (magnitude body).length := by omega
  rw [integerValue, dif_pos (by omega)]
  exact congrArg Except.ok (Bytes32.ext padded)

theorem integerValue_integerBody (value : Bytes32) :
    integerValue (integerBody value.bytes) = .ok value := by
  have padded := replicate_append_significant value.bytes
  rcases integerBody_cases value.bytes with
    ⟨empty, body⟩ | ⟨first, rest, form, nonzero, ⟨-, body⟩ | ⟨-, body⟩⟩
  · rw [empty, List.append_nil, value.length_eq, List.length_nil, Nat.sub_zero] at padded
    apply integerValue_of_magnitude 31
    rw [body, ← padded]
    rfl
  · rw [body]
    rw [form] at padded
    exact integerValue_of_magnitude _ padded
  · rw [body]
    have whole : magnitude (first :: rest) = first :: rest := by
      cases rest with
      | nil => rfl
      | cons second rest => exact if_neg nonzero
    rw [form] at padded
    exact integerValue_of_magnitude _ (by rwa [whole])

/-! The layout. -/

def layout (parts : Parts) : Bytes :=
  compoundTag :: (parts.r.length + parts.s.length + 4).toUInt8 :: parts.rTag ::
    parts.r.length.toUInt8 :: (parts.r ++ (parts.sTag :: parts.s.length.toUInt8 ::
      (parts.s ++ [parts.sighashType])))

theorem length_layout (parts : Parts) :
    (layout parts).length = parts.r.length + parts.s.length + 7 := by
  simp only [layout, List.length_cons, List.length_append, List.length_nil]
  omega

private theorem getD_of_append {bytes before after : Bytes} {byte : UInt8} {position : Nat}
    (form : bytes = before ++ byte :: after) (here : position = before.length) :
    bytes.getD position 0 = byte := by
  rw [form, here, List.getD_eq_getElem?_getD, List.getElem?_append_right (Nat.le_refl _),
    Nat.sub_self, List.getElem?_cons_zero, Option.getD_some]

private theorem take_drop_of_append {bytes before middle after : Bytes} {start : Nat}
    (form : bytes = before ++ (middle ++ after)) (here : start = before.length) :
    (bytes.drop start).take middle.length = middle := by
  rw [form, here, List.drop_left, List.take_left]

private theorem toNat_toUInt8 {number : Nat} (small : number < 256) :
    number.toUInt8.toNat = number := by
  rw [Nat.toUInt8, UInt8.toNat_ofNat', Nat.mod_eq_of_lt small]

theorem split_layout {parts : Parts} (some : 2 ≤ parts.r.length + parts.s.length)
    (few : parts.r.length + parts.s.length ≤ 66) : split (layout parts) = .ok parts := by
  have length := length_layout parts
  obtain ⟨rTag, r, sTag, s, sighashType⟩ := parts
  generalize form : layout ⟨rTag, r, sTag, s, sighashType⟩ = der at length
  simp only at some few length
  let before := [compoundTag, (r.length + s.length + 4).toUInt8, rTag, r.length.toUInt8]
  have atR : der = before ++ (r ++ (sTag :: s.length.toUInt8 :: (s ++ [sighashType]))) := form.symm
  have atTag : der = (before ++ r) ++ sTag :: (s.length.toUInt8 :: (s ++ [sighashType])) := atR
  have atLength : der = (before ++ r ++ [sTag]) ++ s.length.toUInt8 :: (s ++ [sighashType]) := by
    rw [atTag, List.append_assoc (before ++ r)]
    rfl
  have atS : der = (before ++ r ++ [sTag, s.length.toUInt8]) ++ (s ++ [sighashType]) := by
    rw [atTag, List.append_assoc (before ++ r)]
    rfl
  have atType : der = (before ++ r ++ [sTag, s.length.toUInt8] ++ s) ++ sighashType :: [] := by
    rw [atS, ← List.append_assoc]
  have total : (der.getD 1 0).toNat = r.length + s.length + 4 := by
    rw [atR]
    exact toNat_toUInt8 (by omega)
  have rLength : (der.getD 3 0).toNat = r.length := by
    rw [atR]
    exact toNat_toUInt8 (by omega)
  have sLength : (der.getD (5 + r.length) 0).toNat = s.length := by
    rw [getD_of_append atLength (by
      simp only [before, List.length_append, List.length_cons, List.length_nil]
      omega)]
    exact toNat_toUInt8 (by omega)
  have tag : der.getD 0 0 = compoundTag ∧ der.getD 2 0 = rTag := by
    rw [atR]
    exact ⟨rfl, rfl⟩
  have second : der.getD (4 + r.length) 0 = sTag := getD_of_append atTag (by
    simp only [before, List.length_append, List.length_cons, List.length_nil])
  have last : der.getD (der.length - 1) 0 = sighashType := getD_of_append atType (by
    simp only [before, length, List.length_append, List.length_cons, List.length_nil]
    omega)
  have rPart : (der.drop 4).take r.length = r := take_drop_of_append atR rfl
  have sPart : (der.drop (6 + r.length)).take s.length = s := take_drop_of_append atS (by
    simp only [before, List.length_append, List.length_cons, List.length_nil]
    omega)
  unfold split
  simp only [total, rLength, sLength, tag, second, last, rPart, sPart]
  rw [if_neg (by omega), if_neg (fun different => different rfl), if_neg (by omega),
    if_neg (by omega), if_neg (by omega)]

/-! Signatures. -/

def parts (signature : EcdsaSignature) (sighashType : UInt32) : Parts :=
  ⟨integerTag, integerBody signature.r.bytes, integerTag, integerBody signature.s.bytes,
    sighashType.toUInt8⟩

theorem encodeInteger_eq (value : Bytes32) :
    encodeInteger value.bytes = .ok (integerTag ::
      (integerBody value.bytes).length.toUInt8 :: integerBody value.bytes) := by
  have short := length_significant_le value.bytes
  rw [value.length_eq] at short
  exact if_neg (Nat.not_lt.mpr short)

theorem encode_eq (signature : EcdsaSignature) {sighashType : UInt32} (byte : sighashType ≤ 0xff) :
    encode signature sighashType = .ok (layout (parts signature sighashType)) := by
  have small : ¬0xff < sighashType := UInt32.not_lt.mpr byte
  rw [encode, if_neg small, encodeInteger_eq, encodeInteger_eq]
  have lengths (a b : Nat) : a + 2 + (b + 2) = a + b + 4 := by omega
  change Except.ok _ = Except.ok _
  simp only [layout, parts, List.length_cons, List.append_assoc, List.cons_append, lengths]

theorem toUInt8_toUInt32 {sighashType : UInt32} (byte : sighashType ≤ 0xff) :
    sighashType.toUInt8.toUInt32 = sighashType := by
  have small : sighashType.toNat ≤ 255 := byte
  rw [← UInt32.toNat_inj, UInt8.toNat_toUInt32, UInt32.toNat_toUInt8]
  omega

theorem strictParts_layout (signature : EcdsaSignature) (sighashType : UInt32) :
    strictParts (layout (parts signature sighashType)) = .ok (parts signature sighashType) := by
  have r := length_integerBody signature.r.bytes
  have s := length_integerBody signature.s.bytes
  rw [signature.r.length_eq] at r
  rw [signature.s.length_eq] at s
  have cut : split (layout (parts signature sighashType)) = .ok (parts signature sighashType) :=
    split_layout (by simp only [parts]; omega) (by simp only [parts]; omega)
  rw [strictParts, cut]
  simp only [bind, Except.bind, parts, checkInteger_integerBody]
  rfl

theorem decode_layout (signature : EcdsaSignature) {sighashType : UInt32}
    (byte : sighashType ≤ 0xff) :
    decode (layout (parts signature sighashType)) = .ok (signature, sighashType) := by
  rw [decode, strictParts_layout]
  simp only [bind, Except.bind, parts, integerValue_integerBody, toUInt8_toUInt32 byte]
  rfl

end BitcoinSigning.Der
