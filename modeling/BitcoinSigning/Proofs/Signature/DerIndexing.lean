import BitcoinSigning.Proofs.Signature.DerCutting
/-!
Encoding and decoding by position. Each byte and each range of bytes is asked for at a
position that may lie outside, in the order in which a byte array is examined, and then
there is no outcome at all. The checks made before stand for every position, so there is
always an outcome, and it is the one of the functions on lists.
-/

namespace BitcoinSigning.Der

/-- An outcome that is missing where something outside of an array was asked for. -/
abbrev Indexed : Type → Type := ExceptT DerError Option

namespace Indexed

variable {α β : Type}

def settled (outcome : Except DerError α) : Indexed α := ExceptT.mk (some outcome)

def demand (found : Option α) : Indexed α := ExceptT.lift found

def byteAt (bytes : Bytes) (position : Nat) : Indexed UInt8 := demand bytes[position]?

def range (bytes : Bytes) (start stop : Nat) : Indexed Bytes :=
  demand (if start ≤ stop ∧ stop ≤ bytes.length then some ((bytes.take stop).drop start) else none)

def minus (position offset : Nat) : Indexed Nat :=
  demand (if offset ≤ position then some (position - offset) else none)

/-- Zero bytes, with the ones from a position on to the end replaced by as many others. -/
def fill (start : Nat) (value : Bytes) : Indexed Bytes32 :=
  demand (if fits : start ≤ 32 ∧ value.length = 32 - start then
    some ⟨List.replicate start 0 ++ value, by
      rw [List.length_append, List.length_replicate]
      omega⟩
  else none)

def encodeInteger (value : Bytes) : Indexed Bytes := do
  let significant ← range value (value.findIdx (· != 0)) value.length
  if 32 < significant.length then throw .integerTooLarge
  let padded ← if significant = [] then pure true else isNegativeByte <$> byteAt significant 0
  let body := if padded then 0 :: significant else significant
  return integerTag :: body.length.toUInt8 :: body

def encode (signature : EcdsaSignature) (sighashType : UInt32) : Indexed Bytes := do
  if 0xff < sighashType then throw (.sighashTypeTooLarge sighashType)
  let r ← encodeInteger signature.r.bytes
  let s ← encodeInteger signature.s.bytes
  return compoundTag :: (r.length + s.length).toUInt8 :: (r ++ s ++ [sighashType.toUInt8])

def checkInteger (value : Bytes) : Indexed Unit := do
  if value = [] then throw .invalidIntegerLength
  if isNegativeByte (← byteAt value 0) then throw .negativeInteger
  if 1 < value.length then
    if (← byteAt value 0) = 0 then
      if !isNegativeByte (← byteAt value 1) then throw .excessivePadding

def lengths (der : Bytes) : Indexed (Nat × Nat) := do
  if der.length < 9 ∨ 73 < der.length then throw (.invalidLength der.length)
  if (← byteAt der 0) ≠ compoundTag then throw .invalidHeader
  if (← byteAt der 1).toNat ≠ (← minus der.length 3) then throw .lengthMismatch
  let rLength := (← byteAt der 3).toNat
  if der.length ≤ 5 + rLength then throw .invalidIntegerLength
  let sLength := (← byteAt der (5 + rLength)).toNat
  if rLength + sLength + 7 ≠ der.length then throw .lengthMismatch
  return (rLength, sLength)

def checkEncoding (der : Bytes) : Indexed Unit := do
  let (rLength, sLength) ← lengths der
  if (← byteAt der 2) ≠ integerTag then throw .invalidIntegerTag
  checkInteger (← range der 4 (4 + rLength))
  if (← byteAt der (4 + rLength)) ≠ integerTag then throw .invalidIntegerTag
  checkInteger (← range der (6 + rLength) (6 + rLength + sLength))

def isStrict (der : Bytes) : Option Bool := (checkEncoding der).run.map Except.isOk

def integerValue (value : Bytes) : Indexed Bytes32 := do
  if 32 < (magnitude value).length then throw .integerTooLarge
  fill (← minus 32 (magnitude value).length) (magnitude value)

def decode (der : Bytes) : Indexed (EcdsaSignature × UInt32) := do
  checkEncoding der
  let rLength := (← byteAt der 3).toNat
  let sLength := (← byteAt der (5 + rLength)).toNat
  let r ← integerValue (← range der 4 (4 + rLength))
  let s ← integerValue (← range der (6 + rLength) (6 + rLength + sLength))
  let sighashType ← byteAt der (← minus der.length 1)
  return (⟨r, s⟩, sighashType.toUInt32)

/-! What is inside is found. -/

theorem settled_ok_bind (a : α) (next : α → Indexed β) : (settled (.ok a) >>= next) = next a := rfl

theorem settled_bind {outcome : Except DerError α} {next : α → Indexed β}
    {next' : α → Except DerError β} (agree : ∀ a, next a = settled (next' a)) :
    (settled outcome >>= next) = settled (outcome >>= next') := by
  cases outcome with
  | error e => rfl
  | ok a => exact agree a

theorem byteAt_eq {bytes : Bytes} {position : Nat} (inside : position < bytes.length) :
    byteAt bytes position = settled (.ok (bytes.getD position 0)) := by
  rw [byteAt, List.getD_eq_getElem?_getD, List.getElem?_eq_getElem inside]
  rfl

theorem range_eq {bytes : Bytes} {start length : Nat} (inside : start + length ≤ bytes.length) :
    range bytes start (start + length) = settled (.ok ((bytes.drop start).take length)) := by
  rw [range, if_pos ⟨Nat.le_add_right start length, inside⟩, List.drop_take,
    Nat.add_sub_cancel_left]
  rfl

theorem minus_eq {position offset : Nat} (le : offset ≤ position) :
    minus position offset = settled (.ok (position - offset)) := by
  rw [minus, if_pos le]
  rfl

theorem unless_eq {refused : Prop} [Decidable refused] {e : DerError} {next : Unit → Indexed α}
    {outcome : Except DerError α} (agree : ¬refused → next () = settled outcome) :
    (if refused then throw e >>= next else next ()) =
      settled (if refused then .error e else outcome) := by
  by_cases given : refused
  · rw [if_pos given, if_pos given]
    rfl
  · rw [if_neg given, if_neg given, agree given]

theorem unless_map {refused : Prop} [Decidable refused] (e : DerError) (f : α → β)
    (outcome : Except DerError α) :
    (if refused then .error e else outcome : Except DerError α).map f =
      if refused then .error e else outcome.map f :=
  apply_ite (Except.map f) refused (.error e) outcome

theorem unless_bind {refused : Prop} [Decidable refused] (e : DerError)
    (outcome : Except DerError α) (next : α → Except DerError β) :
    (if refused then .error e else outcome) >>= next =
      if refused then .error e else outcome >>= next :=
  apply_ite (· >>= next) refused (.error e) outcome

/-! The functions have an outcome. -/

theorem encodeInteger_eq (value : Bytes) :
    encodeInteger value = settled (Der.encodeInteger value) := by
  have whole : range value (value.findIdx (· != 0)) value.length =
      settled (.ok (significant value)) := by
    have inside : value.findIdx (· != 0) ≤ value.length := List.findIdx_le_length
    have found : value.drop (value.findIdx (· != 0)) = significant value :=
      List.dropWhile_eq_drop_findIdx_not.symm
    rw [range, if_pos ⟨inside, Nat.le_refl _⟩, List.take_length, found]
    rfl
  rw [encodeInteger, whole, settled_ok_bind, Der.encodeInteger, ← significant]
  refine unless_eq fun _ => ?_
  rw [integerBody, ← significant]
  cases significant value with
  | nil => rfl
  | cons first rest =>
    rw [if_neg (List.cons_ne_nil _ _), byteAt_eq (Nat.succ_pos _)]
    rfl

theorem encode_eq (signature : EcdsaSignature) (sighashType : UInt32) :
    encode signature sighashType = settled (Der.encode signature sighashType) := by
  unfold encode Der.encode
  change _ = settled (if 0xff < sighashType then .error (.sighashTypeTooLarge sighashType) else _)
  refine unless_eq fun _ => ?_
  rw [encodeInteger_eq, encodeInteger_eq]
  exact settled_bind fun _ => settled_bind fun _ => rfl

theorem checkInteger_eq (value : Bytes) :
    checkInteger value = settled (Der.checkInteger integerTag value) := by
  rcases value with - | ⟨first, - | ⟨second, others⟩⟩
  · rfl
  · change _ = settled (if isNegativeByte first then _ else _)
    rw [checkInteger, if_neg (List.cons_ne_nil _ _), byteAt_eq Nat.one_pos, settled_ok_bind]
    exact unless_eq fun _ => rfl
  · change _ = settled (if isNegativeByte first then _ else
      if first = 0 ∧ isNegativeByte second = false then _ else _)
    have long : 1 < (first :: second :: others).length := Nat.succ_lt_succ (Nat.succ_pos _)
    rw [checkInteger, if_neg (List.cons_ne_nil _ _), byteAt_eq (Nat.zero_lt_of_lt long),
      settled_ok_bind]
    refine unless_eq fun _ => ?_
    rw [if_pos long, settled_ok_bind, byteAt_eq long, settled_ok_bind]
    change (if first = 0 then if !isNegativeByte second then _ else _ else _) = _
    by_cases zero : first = 0
    · simp only [zero, true_and, if_true]
      cases isNegativeByte second with
      | true => rfl
      | false => rfl
    · simp only [zero, false_and, if_false]
      rfl

theorem lengths_eq (der : Bytes) :
    lengths der = settled ((split der).map fun parts => (parts.r.length, parts.s.length)) := by
  unfold lengths split
  simp only [unless_map]
  refine unless_eq fun size => ?_
  rw [byteAt_eq (by omega), settled_ok_bind]
  refine unless_eq fun header => ?_
  rw [byteAt_eq (by omega), settled_ok_bind, minus_eq (by omega), settled_ok_bind]
  refine unless_eq fun total => ?_
  rw [byteAt_eq (by omega), settled_ok_bind]
  refine unless_eq fun inside => ?_
  rw [byteAt_eq (by omega), settled_ok_bind]
  refine unless_eq fun length => ?_
  rw [Except.map, length_take_drop (by omega), length_take_drop (by omega)]
  rfl

theorem map_strictParts (der : Bytes) :
    (strictParts der).map (fun _ => ()) = split der >>= fun parts =>
      Der.checkInteger parts.rTag parts.r >>= fun _ => Der.checkInteger parts.sTag parts.s := by
  rw [strictParts]
  cases split der with
  | error e => rfl
  | ok parts =>
    change Except.map _ (Der.checkInteger parts.rTag parts.r >>= fun _ =>
      Der.checkInteger parts.sTag parts.s >>= fun _ => Except.ok parts) =
        (Der.checkInteger parts.rTag parts.r >>= fun _ => Der.checkInteger parts.sTag parts.s)
    cases Der.checkInteger parts.rTag parts.r with
    | error e => rfl
    | ok _ =>
      cases Der.checkInteger parts.sTag parts.s with
      | error e => rfl
      | ok _ => rfl

theorem checkEncoding_eq (der : Bytes) :
    checkEncoding der = settled ((strictParts der).map fun _ => ()) := by
  rw [checkEncoding, lengths_eq, map_strictParts]
  cases found : split der with
  | error e => rfl
  | ok parts =>
    have cut := isCut_of_split found
    have length := cut.length
    rw [Except.map, settled_ok_bind]
    simp only
    rw [byteAt_eq (by omega), settled_ok_bind, cut.rTag]
    change _ = settled (Der.checkInteger parts.rTag parts.r >>= fun _ =>
      Der.checkInteger parts.sTag parts.s)
    rw [Der.checkInteger_eq_ite, Der.checkInteger_eq_ite parts.sTag, unless_bind]
    refine unless_eq fun _ => ?_
    rw [range_eq (by omega), settled_ok_bind, cut.r, checkInteger_eq]
    refine settled_bind fun _ => ?_
    rw [byteAt_eq (by omega), settled_ok_bind, cut.sTag]
    refine unless_eq fun _ => ?_
    rw [range_eq (by omega), settled_ok_bind, cut.s, checkInteger_eq]

theorem isStrict_eq (der : Bytes) : isStrict der = some (Der.isStrict der) := by
  rw [isStrict, checkEncoding_eq, Der.isStrict]
  cases strictParts der with
  | error e => rfl
  | ok parts => rfl

theorem integerValue_eq (value : Bytes) :
    integerValue value = settled (Der.integerValue value) := by
  unfold integerValue Der.integerValue
  by_cases fits : (magnitude value).length ≤ 32
  · rw [if_neg (Nat.not_lt.mpr fits), dif_pos fits, minus_eq fits, settled_ok_bind, fill,
      dif_pos ⟨Nat.sub_le _ _, by omega⟩]
    rfl
  · rw [if_pos (Nat.not_le.mp fits), dif_neg fits]
    rfl

theorem decode_eq (der : Bytes) : decode der = settled (Der.decode der) := by
  rw [decode, checkEncoding_eq, Der.decode]
  cases strict : strictParts der with
  | error e => rfl
  | ok parts =>
    have cut := isCut_of_split (strictParts_eq_ok_iff.mp strict).1
    have length := cut.length
    rw [Except.map, settled_ok_bind, byteAt_eq (by omega), settled_ok_bind, cut.rLength]
    dsimp only
    rw [byteAt_eq (by omega), settled_ok_bind, cut.sLength]
    rw [range_eq (by omega), settled_ok_bind, cut.r, integerValue_eq]
    refine settled_bind fun r => ?_
    rw [range_eq (by omega), settled_ok_bind, cut.s, integerValue_eq]
    refine settled_bind fun s => ?_
    rw [minus_eq (by omega), settled_ok_bind, byteAt_eq (by omega), settled_ok_bind,
      cut.sighashType]
    rfl

end Indexed

end BitcoinSigning.Der
