import BitcoinSigning.Curve.Scalar
import BitcoinSigning.Proofs.Limbs.Exactness
/-!
Numbers of 512 bits reduced by the order of the group, word by word. While there is an upper
half, each of its words times the three words of the complement is added at its place to the
lower half, and the carry runs on as far as it has to. Every such round leaves a smaller number
with the same remainder, so the loop ends. No sum needs more than two words and no carry gets
beyond the eighth word.
-/

namespace BitcoinSigning

attribute [local instance (high)] instPowNat

namespace Scalar

def complementWords : List UInt64 := [0x402da1732fc9bebf, 0x4551231950b75fc4, 1]

/-- A word of the upper half times some factors, added at its place. There is no outcome if
the carry is still not settled behind the last word. -/
def foldRow? (factors wide next : List UInt64) (i : Nat) : Option (List UInt64) := do
  let row ← Words.addProduct? (← wide[i + 4]?) factors i next
  let last ← row.runOn? 8 (i + factors.length)
  last.settled?

def foldWide? (factors wide : List UInt64) : Option (List UInt64) :=
  (List.range 4).foldlM (foldRow? factors wide) (wide.take 4 ++ List.replicate 4 0)

/-- One round of the loop, after which it goes on or has its result. -/
def round? (wide : List UInt64) : Option (List UInt64 ⊕ Nat256) :=
  if (wide.drop 4).any (· != 0) then .inl <$> foldWide? complementWords wide
  else do
    let value ← Nat256.ofWords? (wide.take 4)
    return .inr (if value.lt groupOrder.value then value else (value.sub groupOrder.value).1)

/-- From these words the loop comes to an end with the result, and every round has an outcome. -/
inductive Ends : List UInt64 → Nat256 → Prop
  | returns {wide : List UInt64} {result : Nat256} (last : round? wide = some (.inr result)) :
    Ends wide result
  | continues {wide next : List UInt64} {result : Nat256}
    (further : round? wide = some (.inl next)) (others : Ends next result) : Ends wide result

variable {factors wide next : List UInt64} {result : Nat256}

theorem lower_add_upper_lt (three : factors.length = 3) (eight : wide.length = 8) (i : Nat) :
    Words.toNat (wide.take 4) + Words.toNat ((wide.drop 4).take i) * Words.toNat factors <
      2 ^ (64 * 8 : Nat) := by
  apply Words.toNat_add_mul_lt
  · rw [List.length_take]
    omega
  · rw [List.length_take, List.length_drop]
    omega

theorem exists_foldRow? {i : Nat} (three : factors.length = 3) (below : i < 4)
    (eight : wide.length = 8) (length : next.length = 8)
    (sofar : Words.toNat next = Words.toNat (wide.take 4) +
      Words.toNat ((wide.drop 4).take i) * Words.toNat factors) :
    ∃ later, foldRow? factors wide next i = some later ∧ later.length = 8 ∧
      Words.toNat later = Words.toNat (wide.take 4) +
        Words.toNat ((wide.drop 4).take (i + 1)) * Words.toNat factors := by
  have room : i + factors.length ≤ next.length := by omega
  have word : wide[i + 4]? = some wide[i + 4] := List.getElem?_eq_getElem (by omega)
  have word' : (wide.drop 4)[i]? = some wide[i + 4] := by
    rw [List.getElem?_drop, Nat.add_comm, word]
  obtain ⟨row, added, done⟩ := Words.exists_addProduct? wide[i + 4] room
  have small := done.carry_lt (Carrying.carry_ofWords_lt next)
  have total := done.total room
  have sum : Words.toNat row.words + 2 ^ (64 * (i + factors.length)) * row.carry.toNat =
      Words.toNat (wide.take 4) +
        Words.toNat ((wide.drop 4).take (i + 1)) * Words.toNat factors := by
    rw [Words.toNat_take_succ word', Nat.add_mul, ← Nat.add_assoc, ← sofar, Nat.mul_assoc,
      Words.toNat_take_drop room]
    exact total.trans (Nat.add_right_comm _ _ _)
  obtain ⟨last, later, further, settled, length', number⟩ :=
    Carrying.exists_runOn? (done.length.trans length) (length ▸ room) small
      (by rw [sum]; exact lower_add_upper_lt three eight (i + 1))
  refine ⟨later, ?_, length', number.trans sum⟩
  rw [foldRow?, word]
  simp only [Option.bind_eq_bind, Option.bind_some, added, further, settled]

theorem exists_foldWide? (three : factors.length = 3) (eight : wide.length = 8) :
    ∃ next, foldWide? factors wide = some next ∧ next.length = 8 ∧
      Words.toNat next = Words.toNat (wide.take 4) +
        Words.toNat (wide.drop 4) * Words.toNat factors := by
  have lower : (wide.take 4).length = 4 := List.length_take_of_le (by omega)
  have first : (wide.take 4 ++ List.replicate 4 0).length = 8 ∧
      Words.toNat (wide.take 4 ++ List.replicate 4 0) = Words.toNat (wide.take 4) +
        Words.toNat ((wide.drop 4).take 0) * Words.toNat factors := by
    refine ⟨by rw [List.length_append, lower]; rfl, ?_⟩
    rw [Words.toNat_append, Words.toNat_replicate_zero, Nat.mul_zero, List.take_zero]
    exact congrArg (_ + ·) (Nat.zero_mul _).symm
  obtain ⟨next, rows, length, number⟩ := exists_foldlM_range (motive := fun i next =>
    next.length = 8 ∧ Words.toNat next = Words.toNat (wide.take 4) +
      Words.toNat ((wide.drop 4).take i) * Words.toNat factors) first
    fun i below next kept => exists_foldRow? three below eight kept.1 kept.2
  rw [Words.take_drop_four eight] at number
  exact ⟨next, rows, length, number⟩

theorem foldWide?_words (number : Nat512) :
    foldWide? complementWords number.words = some (groupOrder.fold number).words := by
  have complement : Words.toNat complementWords = groupOrder.complement.toNat := by decide
  obtain ⟨next, rows, length, total⟩ := exists_foldWide?
    (show complementWords.length = 3 from rfl) (show number.words.length = 8 from rfl)
  rw [rows]
  congr 1
  apply Words.toNat_inj length
  rw [total, Nat512.toNat_words, groupOrder.toNat_fold, number.toNat_take_words,
    number.toNat_drop_words, complement, Nat.mul_comm]

theorem any_words_eq (number : Nat512) :
    (number.words.drop 4).any (· != 0) = !number.high.isZero := by
  have none : (number.words.drop 4).all (· == 0) = number.high.isZero := by
    rw [Bool.eq_iff_iff]
    simp [Nat512.words, Nat512.high, Nat256.isZero, Nat256.zero, Nat256.ofWord]
  rw [← none, List.not_all_eq_any_not]
  rfl

theorem round?_of_upper {number : Nat512} (upper : number.high.isZero = false) :
    round? number.words = some (.inl (groupOrder.fold number).words) := by
  rw [round?, any_words_eq, upper, if_pos (show (!false) = true from rfl), foldWide?_words]
  rfl

theorem round?_of_lower {number : Nat512} (lower : number.high.isZero = true) :
    round? number.words = some (.inr (groupOrder.subtractOnce number.low)) := by
  rw [round?, any_words_eq, lower]
  rfl

theorem Ends.unique {other : Nat256} (ends : Ends wide result) (ends' : Ends wide other) :
    result = other := by
  induction ends with
  | returns last =>
    cases ends' with
    | returns last' => exact Sum.inr.inj (Option.some.inj (last.symm.trans last'))
    | continues further' others' => cases last.symm.trans further'
  | continues further others ih =>
    cases ends' with
    | returns last' => cases further.symm.trans last'
    | continues further' others' =>
      obtain rfl := Sum.inl.inj (Option.some.inj (further.symm.trans further'))
      exact ih others'

theorem ends_reduce (number : Nat512) : Ends number.words (groupOrder.reduce number) := by
  fun_induction Modulus.reduce groupOrder number with
  | case1 number lower => exact .returns (round?_of_lower lower)
  | case2 number upper ih => exact .continues (round?_of_upper ((Bool.not_eq_true _).mp upper)) ih

theorem ends_iff (number : Nat512) :
    Ends number.words result ↔ result = groupOrder.reduce number := by
  constructor
  · exact fun ends => ends.unique (ends_reduce number)
  · rintro rfl
    exact ends_reduce number

theorem round?_ne_none (number : Nat512) : round? number.words ≠ none := by
  intro nothing
  cases upper : number.high.isZero with
  | true => cases nothing.symm.trans (round?_of_lower upper)
  | false => cases nothing.symm.trans (round?_of_upper upper)

theorem round?_shrinks {number : Nat512} (further : round? number.words = some (.inl next)) :
    (Nat512.ofWords next).words = next ∧ (Nat512.ofWords next).toNat < number.toNat := by
  cases upper : number.high.isZero with
  | true => cases further.symm.trans (round?_of_lower upper)
  | false =>
    obtain rfl := Sum.inl.inj (Option.some.inj (further.symm.trans (round?_of_upper upper)))
    exact ⟨Nat512.words_ofWords rfl, groupOrder.toNat_fold_lt number (by rw [upper]; decide)⟩

/-- The loop as a function. Every round has an outcome, and makes the number smaller. -/
def reduceWide (number : Nat512) : Nat256 :=
  match outcome : round? number.words with
  | some (.inr result) => result
  | some (.inl next) => reduceWide (.ofWords next)
  | none => absurd outcome (round?_ne_none number)
termination_by number.toNat
decreasing_by exact (round?_shrinks outcome).2

theorem ends_reduceWide (number : Nat512) : Ends number.words (reduceWide number) := by
  fun_induction reduceWide number with
  | case1 number result last => exact .returns last
  | case2 number next further ih =>
    rw [(round?_shrinks further).1] at ih
    exact .continues further ih

theorem reduceWide_eq (number : Nat512) : reduceWide number = groupOrder.reduce number :=
  (ends_iff number).mp (ends_reduceWide number)

/-- Every round of the loop leaves a smaller number with the same remainder, as long as there
is an upper half. The loop ends with the remainder, and on its way no sum needs more than 128
bits and no carry is left behind the eighth word. -/
theorem rounds_fit_and_reduce :
    (∀ number : Nat512, number.high.isZero = false →
      ∃ next : Nat512, round? number.words = some (.inl next.words) ∧
        next.toNat % groupOrder.value.toNat = number.toNat % groupOrder.value.toNat ∧
        next.toNat < number.toNat) ∧
    (∀ (number : Nat512) (result : Nat256),
      Ends number.words result ↔ result = groupOrder.reduce number) ∧
    (∀ number : Nat512,
      (groupOrder.reduce number).toNat = number.toNat % groupOrder.value.toNat ∧
      (groupOrder.reduce number).toNat < groupOrder.value.toNat) := by
  have large := groupOrder.two_pow_255_lt
  refine ⟨fun number upper => ?_, fun number result => ends_iff number, fun number => ?_⟩
  · exact ⟨groupOrder.fold number, round?_of_upper upper, groupOrder.toNat_fold_mod number,
      groupOrder.toNat_fold_lt number (Bool.not_eq_true _ ▸ upper)⟩
  · rw [groupOrder.toNat_reduce]
    exact ⟨rfl, Nat.mod_lt _ (by omega)⟩

theorem rounds_fit_and_reduce_greatest :
    Nat512.greatest.high.isZero = false ∧
    (∃ next : Nat512, round? Nat512.greatest.words = some (.inl next.words) ∧
      next.toNat % groupOrder.value.toNat = Nat512.greatest.toNat % groupOrder.value.toNat ∧
      next.toNat < Nat512.greatest.toNat) ∧
    Ends Nat512.greatest.words
      ⟨0x896cf21467d7d13f, 0x741496c20e7cf878, 0xe697f5e45bcd07c6, 0x9d671cd581c69bc5⟩ := by
  obtain ⟨rounds, ends, remainders⟩ := rounds_fit_and_reduce
  have upper : Nat512.greatest.high.isZero = false := by decide
  refine ⟨upper, rounds _ upper, (ends _ _).mpr ?_⟩
  rw [← Nat256.toNat_inj, (remainders _).1]
  decide +kernel

end Scalar

end BitcoinSigning
