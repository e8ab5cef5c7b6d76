import BitcoinSigning.Proofs.Signature.DerIntegers
/-!
Where the parts of an encoded signature lie. An encoding is cut at two lengths that it
holds itself, the second at a position that the first one gives. The checks on them make
the parts cover every byte, so an encoding that can be cut is the layout of its parts.
-/

namespace BitcoinSigning.Der

variable {der : Bytes} {parts : Parts}

/-- The parts lie in the encoding where its lengths say. -/
structure IsCut (der : Bytes) (parts : Parts) : Prop where
  least : 9 ≤ der.length
  most : der.length ≤ 73
  header : der.getD 0 0 = compoundTag
  total : (der.getD 1 0).toNat = der.length - 3
  rLength : (der.getD 3 0).toNat = parts.r.length
  sLength : (der.getD (5 + parts.r.length) 0).toNat = parts.s.length
  length : parts.r.length + parts.s.length + 7 = der.length
  rTag : der.getD 2 0 = parts.rTag
  r : (der.drop 4).take parts.r.length = parts.r
  sTag : der.getD (4 + parts.r.length) 0 = parts.sTag
  s : (der.drop (6 + parts.r.length)).take parts.s.length = parts.s
  sighashType : der.getD (der.length - 1) 0 = parts.sighashType

theorem length_take_drop {bytes : Bytes} {start length : Nat}
    (inside : start + length ≤ bytes.length) :
    ((bytes.drop start).take length).length = length := by
  rw [List.length_take, List.length_drop]
  omega

theorem isCut_of_split (found : split der = .ok parts) : IsCut der parts := by
  simp only [split, unless_eq_ok_iff, ne_eq, Decidable.not_not, Except.ok.injEq] at found
  obtain ⟨size, header, total, inside, length, rfl⟩ := found
  have rLength := length_take_drop (show 4 + (der.getD 3 0).toNat ≤ der.length by omega)
  have sLength := length_take_drop (show 6 + (der.getD 3 0).toNat +
    (der.getD (5 + (der.getD 3 0).toNat) 0).toNat ≤ der.length by omega)
  constructor
  case least => omega
  case most => omega
  case header => exact header
  case total => exact total
  case rLength => exact rLength.symm
  case sLength => rw [rLength, sLength]
  case length => rw [rLength, sLength, length]
  case r => rw [rLength]
  case sTag => rw [rLength]
  case s => rw [rLength, sLength]
  all_goals rfl

private theorem drop_eq_getD_cons {bytes : Bytes} {position : Nat}
    (inside : position < bytes.length) :
    bytes.drop position = bytes.getD position 0 :: bytes.drop (position + 1) := by
  rw [List.drop_eq_getElem_cons inside, List.getD_eq_getElem?_getD,
    List.getElem?_eq_getElem inside, Option.getD_some]

private theorem toUInt8_eq {byte : UInt8} {number : Nat} (same : byte.toNat = number) :
    number.toUInt8 = byte := by
  rw [← same]
  exact UInt8.ofNat_toNat

theorem IsCut.eq_layout (cut : IsCut der parts) : der = layout parts := by
  obtain ⟨least, most, header, total, rLength, sLength, length, rTag, r, sTag, s, sighashType⟩ :=
    cut
  have sum : (der.getD 1 0).toNat = parts.r.length + parts.s.length + 4 := by omega
  have last : der.drop (6 + parts.r.length + parts.s.length) = [parts.sighashType] := by
    rw [show 6 + parts.r.length + parts.s.length = der.length - 1 by omega,
      drop_eq_getD_cons (by omega), sighashType, List.drop_of_length_le (by omega)]
  have second : der.drop (4 + parts.r.length) = parts.sTag :: parts.s.length.toUInt8 ::
      (parts.s ++ [parts.sighashType]) := by
    rw [drop_eq_getD_cons (by omega), sTag,
      show 4 + parts.r.length + 1 = 5 + parts.r.length by omega, drop_eq_getD_cons (by omega),
      toUInt8_eq sLength, show 5 + parts.r.length + 1 = 6 + parts.r.length by omega,
      ← List.take_append_drop parts.s.length (der.drop (6 + parts.r.length)), s, List.drop_drop,
      last]
  have first : der.drop 4 = parts.r ++ (parts.sTag :: parts.s.length.toUInt8 ::
      (parts.s ++ [parts.sighashType])) := by
    rw [← List.take_append_drop parts.r.length (der.drop 4), r, List.drop_drop, second]
  calc
    der = der.drop 0 := rfl
    _ = compoundTag :: der.getD 1 0 :: parts.rTag :: der.getD 3 0 :: der.drop 4 := by
      rw [drop_eq_getD_cons (by omega), drop_eq_getD_cons (by omega),
        drop_eq_getD_cons (by omega), drop_eq_getD_cons (by omega), header, rTag]
    _ = layout parts := by
      rw [first, layout, toUInt8_eq rLength, toUInt8_eq sum]

theorem split_eq_ok_iff :
    split der = .ok parts ↔ 9 ≤ der.length ∧ der.length ≤ 73 ∧ der = layout parts := by
  constructor
  · intro found
    have cut := isCut_of_split found
    exact ⟨cut.least, cut.most, cut.eq_layout⟩
  · rintro ⟨least, most, rfl⟩
    rw [length_layout] at least most
    exact split_layout (by omega) (by omega)

theorem strictParts_eq_ok_iff :
    strictParts der = .ok parts ↔ split der = .ok parts ∧
      checkInteger parts.rTag parts.r = .ok () ∧ checkInteger parts.sTag parts.s = .ok () := by
  change (split der >>= fun found => checkInteger found.rTag found.r >>= fun _ =>
    checkInteger found.sTag found.s >>= fun _ => Except.ok found) = .ok parts ↔ _
  simp only [bind_eq_ok_iff, Except.ok.injEq]
  constructor
  · rintro ⟨_, found, _, r, _, s, rfl⟩
    exact ⟨found, r, s⟩
  · rintro ⟨found, r, s⟩
    exact ⟨parts, found, (), r, (), s, rfl⟩

end BitcoinSigning.Der
