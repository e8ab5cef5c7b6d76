import BitcoinSigning.Curve.Field
import BitcoinSigning.Proofs.Limbs.Exactness
/-!
Numbers of 512 bits reduced by the prime of the field, word by word. The upper half times the
complement is added to the lower one, then the fifth word of the sum times the complement to
the four others, and once more the complement if that carries. Every sum fits in two words,
every number in the words meant for it, and the last addition never carries.
-/

namespace BitcoinSigning

attribute [local instance (high)] instPowNat

namespace FieldElement

def complementWord : UInt64 := 0x1000003d1

def foldUpperAt? (factor : UInt64) (wide : List UInt64) (state : Carrying) (i : Nat) :
    Option Carrying := do
  let product ← (DoubleWord.ofWord (← wide[i + 4]?)).mul? (.ofWord factor)
  let sum ← (DoubleWord.ofWord (← wide[i]?)).add? product
  state.store? i sum

/-- The lower half plus the upper one times a factor, in five words. -/
def foldUpper? (factor : UInt64) (wide : List UInt64) : Option (List UInt64) := do
  let state ← (List.range 4).foldlM (foldUpperAt? factor wide) (.ofWords (List.replicate 5 0))
  Words.put? state.words 4 (← state.carry.toWord?)

def foldFifthAt? (folded : List UInt64) (state : Carrying) (i : Nat) : Option Carrying := do
  state.store? i (.ofWord (← folded[i]?))

/-- The four lower words plus the fifth times a factor, and the carry. -/
def foldFifth? (factor : UInt64) (folded : List UInt64) : Option Carrying := do
  let product ← (DoubleWord.ofWord (← folded[4]?)).mul? (.ofWord factor)
  (List.range 4).foldlM (foldFifthAt? folded) ⟨List.replicate 4 0, product⟩

/-- The factor once more, if there is a carry. There is no outcome if that carries too. -/
def addCarried? (factor : UInt64) (carry : DoubleWord) (value : Nat256) : Option Nat256 :=
  if carry.toNat ≠ 0 then
    let sum := value.add (.ofWord factor)
    if sum.2 then none else some sum.1
  else some value

def reduceWide? (wide : List UInt64) : Option Nat256 := do
  let folded ← foldUpper? complementWord wide
  let sums ← foldFifth? complementWord folded
  let value ← addCarried? complementWord sums.carry (← Nat256.ofWords? sums.words)
  return if value.lt fieldModulus.value then value else (value.sub fieldModulus.value).1

variable {wide folded : List UInt64} {i : Nat} {state : Carrying}

theorem exists_foldUpperAt? (factor : UInt64) (below : i < 4) (eight : wide.length = 8)
    (done : (Carrying.ofWords (List.replicate 5 0)).DoneBefore i (Words.toNat (wide.take i) +
      Words.toNat ((wide.drop 4).take i) * factor.toNat) state) :
    ∃ later, foldUpperAt? factor wide state i = some later ∧
      (Carrying.ofWords (List.replicate 5 0)).DoneBefore (i + 1)
        (Words.toNat (wide.take (i + 1)) +
          Words.toNat ((wide.drop 4).take (i + 1)) * factor.toNat) later := by
  have low : wide[i]? = some wide[i] := List.getElem?_eq_getElem (by omega)
  have high : wide[i + 4]? = some wide[i + 4] := List.getElem?_eq_getElem (by omega)
  have high' : (wide.drop 4)[i]? = some wide[i + 4] := by
    rw [List.getElem?_drop, Nat.add_comm, high]
  obtain ⟨product, sum, multiplied, added, sum_eq, fits⟩ :=
    DoubleWord.exists_mulAdd? wide[i] wide[i + 4] factor
  have small := done.carry_lt (Carrying.carry_ofWords_lt (List.replicate 5 0))
  obtain ⟨later, stored, done'⟩ := done.store (show i < 5 by omega) sum (by omega)
  have number : Words.toNat (wide.take (i + 1)) +
      Words.toNat ((wide.drop 4).take (i + 1)) * factor.toNat =
        Words.toNat (wide.take i) + Words.toNat ((wide.drop 4).take i) * factor.toNat +
          2 ^ (64 * i) * sum.toNat := by
    rw [Words.toNat_take_succ low, Words.toNat_take_succ high', sum_eq, Nat.add_mul, Nat.mul_add,
      Nat.mul_assoc]
    omega
  refine ⟨later, ?_, number ▸ done'⟩
  rw [foldUpperAt?, low, high]
  simp only [Option.bind_eq_bind, Option.bind_some, multiplied, added, stored]

theorem exists_foldUpper? (factor : UInt64) (eight : wide.length = 8) :
    ∃ folded, foldUpper? factor wide = some folded ∧ folded.length = 5 ∧
      Words.toNat folded =
        Words.toNat (wide.take 4) + Words.toNat (wide.drop 4) * factor.toNat := by
  have nothing : (Carrying.ofWords (List.replicate 5 0)).DoneBefore 0
      (Words.toNat (wide.take 0) + Words.toNat ((wide.drop 4).take 0) * factor.toNat)
      (.ofWords (List.replicate 5 0)) := by
    apply Carrying.doneBefore_zero
    change 0 = 0 + 0 * factor.toNat
    rw [Nat.zero_mul]
  obtain ⟨state, passes, done⟩ := exists_foldlM_range (motive := fun i =>
    (Carrying.ofWords (List.replicate 5 0)).DoneBefore i (Words.toNat (wide.take i) +
      Words.toNat ((wide.drop 4).take i) * factor.toNat)) nothing
    fun i below state done => exists_foldUpperAt? factor below eight done
  have length : state.words.length = 5 := done.length
  have within : 4 < state.words.length := by omega
  have carried := done.carry_lt (Carrying.carry_ofWords_lt (List.replicate 5 0))
  obtain ⟨last, fits, last_eq⟩ := DoubleWord.exists_toWord? carried
  have number := Words.toNat_take_set within last
  rw [last_eq, done.number, List.take_of_length_le (by rw [List.length_set]; omega),
    Words.take_drop_four eight] at number
  refine ⟨state.words.set 4 last, ?_, List.length_set.trans length, number⟩
  rw [foldUpper?, passes]
  simp only [Option.bind_eq_bind, Option.bind_some, fits, Words.put?, if_pos within]

theorem exists_foldFifthAt? {product : DoubleWord} (below : i < 4) (five : folded.length = 5)
    (most : product.toNat ≤ (2 ^ (64 : Nat) - 1) * (2 ^ (64 : Nat) - 1))
    (done : Carrying.DoneBefore ⟨List.replicate 4 0, product⟩ i
      (Words.toNat (folded.take i) + product.toNat) state) :
    ∃ later, foldFifthAt? folded state i = some later ∧
      Carrying.DoneBefore ⟨List.replicate 4 0, product⟩ (i + 1)
        (Words.toNat (folded.take (i + 1)) + product.toNat) later := by
  have word : folded[i]? = some folded[i] := List.getElem?_eq_getElem (by omega)
  have small := folded[i].toNat_lt
  -- Only in the first pass is the carry more than one word, being the whole product.
  have room : state.carry.toNat ≤ (2 ^ 64 - 1) * (2 ^ 64 - 1) := by
    rcases done.carry with unchanged | less
    · rwa [unchanged]
    · omega
  obtain ⟨later, stored, done'⟩ := done.store below (.ofWord folded[i]) (by
    rw [DoubleWord.toNat_ofWord]
    omega)
  rw [DoubleWord.toNat_ofWord, Nat.add_right_comm, ← Words.toNat_take_succ word] at done'
  refine ⟨later, ?_, done'⟩
  rw [foldFifthAt?, word]
  exact stored

theorem exists_foldFifth? (factor : UInt64) {fifth : UInt64} (five : folded.length = 5)
    (last : folded[4]? = some fifth) :
    ∃ sums, foldFifth? factor folded = some sums ∧ sums.words.length = 4 ∧
      Words.toNat sums.words + 2 ^ (256 : Nat) * sums.carry.toNat =
        Words.toNat (folded.take 4) + fifth.toNat * factor.toNat := by
  obtain ⟨product, multiplied, product_eq, most⟩ := DoubleWord.exists_mul? fifth factor
  obtain ⟨sums, passes, done⟩ := exists_foldlM_range (motive := fun i =>
    Carrying.DoneBefore ⟨List.replicate 4 0, product⟩ i
      (Words.toNat (folded.take i) + product.toNat))
    (Carrying.doneBefore_zero (Nat.zero_add product.toNat).symm)
    fun i below state done => exists_foldFifthAt? below five most done
  have four : sums.words.length = 4 := done.length
  have number := done.number
  rw [List.take_of_length_le (Nat.le_of_eq four), product_eq] at number
  refine ⟨sums, ?_, four, number⟩
  rw [foldFifth?, last]
  simp only [Option.bind_eq_bind, Option.bind_some, multiplied, passes]

theorem exists_addCarried? {factor : UInt64} {carry : DoubleWord} {value : Nat256}
    (room : carry.toNat = 0 ∨
      carry.toNat = 1 ∧ value.toNat + factor.toNat < 2 ^ (256 : Nat)) :
    ∃ result, addCarried? factor carry value = some result ∧
      result.toNat = value.toNat + carry.toNat * factor.toNat ∧
      (carry.toNat ≠ 0 → (value.add (.ofWord factor)).2 = false) := by
  rcases room with none | ⟨one, fits⟩
  · refine ⟨value, if_neg (not_not_intro none), ?_, fun more => absurd none more⟩
    rw [none, Nat.zero_mul, Nat.add_zero]
  · have more : carry.toNat ≠ 0 := by omega
    have sum := value.toNat_add (.ofWord factor)
    rw [Nat256.toNat_ofWord] at sum
    have alone : (value.add (.ofWord factor)).2 = false := by
      cases again : (value.add (.ofWord factor)).2 with
      | false => rfl
      | true =>
        rw [again, Bool.toNat_true] at sum
        omega
    refine ⟨(value.add (.ofWord factor)).1, ?_, ?_, fun _ => alone⟩
    · rw [addCarried?, if_pos more]
      exact if_neg (by rw [alone]; exact Bool.false_ne_true)
    · rw [alone, Bool.toNat_false] at sum
      rw [one]
      omega

/-- The first fold leaves a fifth word no larger than the complement, and so the second one a
carry of at most one and, with it, words to which the complement can be added. -/
theorem exists_folds (wide : Nat512) :
    ∃ folded sums value result, foldUpper? complementWord wide.words = some folded ∧
      folded.length = 5 ∧
      Words.toNat folded = wide.low.toNat + wide.high.toNat * complementWord.toNat ∧
      foldFifth? complementWord folded = some sums ∧
      Nat256.ofWords? sums.words = some value ∧
      (sums.carry.toNat ≠ 0 → (value.add (.ofWord complementWord)).2 = false) ∧
      addCarried? complementWord sums.carry value = some result ∧
      ∃ multiple, result.toNat + fieldModulus.value.toNat * multiple = wide.toNat := by
  have missing : complementWord.toNat = 0x1000003d1 := rfl
  have modulus : fieldModulus.value.toNat = 2 ^ (256 : Nat) - 0x1000003d1 := by decide
  obtain ⟨folded, upper, five, first⟩ := exists_foldUpper? complementWord
    (show wide.words.length = 8 from rfl)
  rw [wide.toNat_take_words, wide.toNat_drop_words] at first
  have last : folded[4]? = some folded[4] := List.getElem?_eq_getElem (by omega)
  obtain ⟨sums, fifth, four, second⟩ := exists_foldFifth? complementWord five last
  obtain ⟨value, held, value_eq⟩ := Nat256.exists_ofWords? four
  have parts := Words.toNat_take_succ last
  rw [List.take_of_length_le (Nat.le_of_eq five)] at parts
  have low := wide.low.toNat_lt
  have high := wide.high.toNat_lt
  have rest := Words.toNat_lt (folded.take 4)
  rw [List.length_take_of_le (by omega)] at rest
  have bound := value.toNat_lt
  rw [← value_eq] at second
  have room : sums.carry.toNat = 0 ∨
      sums.carry.toNat = 1 ∧ value.toNat + complementWord.toNat < 2 ^ 256 := by
    rw [missing] at *
    omega
  obtain ⟨result, added, result_eq, alone⟩ := exists_addCarried? room
  refine ⟨folded, sums, value, result, upper, five, first, fifth, held, alone, added,
    sums.carry.toNat + folded[4].toNat + wide.high.toNat, ?_⟩
  rw [Nat512.toNat, modulus]
  rw [missing] at *
  omega

theorem reduceWide?_words (wide : Nat512) :
    reduceWide? wide.words = some (fieldModulus.reduce wide) := by
  obtain ⟨folded, sums, value, result, upper, -, -, fifth, held, -, added, multiple, total⟩ :=
    exists_folds wide
  have reduced : fieldModulus.subtractOnce result = fieldModulus.reduce wide := by
    rw [← Nat256.toNat_inj, fieldModulus.toNat_subtractOnce, fieldModulus.toNat_reduce, ← total,
      Nat.add_mul_mod_self_left]
  rw [reduceWide?, ← reduced]
  simp only [Option.bind_eq_bind, Option.bind_some, upper, fifth, held, added]
  rfl

/-- The outcome of the folds, which there always is. -/
def reduceWide (wide : Nat512) : Nat256 :=
  (reduceWide? wide.words).get (by rw [reduceWide?_words, Option.isSome_some])

theorem reduceWide_eq (wide : Nat512) : reduceWide wide = fieldModulus.reduce wide :=
  Option.get_of_eq_some _ (reduceWide?_words wide)

/-- Every number of 512 bits is reduced to its remainder. On the way no sum needs more than 128
bits, five words hold what the first fold gives, and if the second one carries, the complement
is added without another carry. -/
theorem folds_fit_and_reduce (wide : Nat512) :
    (∃ folded sums value, foldUpper? complementWord wide.words = some folded ∧
      folded.length = 5 ∧
      Words.toNat folded = wide.low.toNat + wide.high.toNat * complementWord.toNat ∧
      foldFifth? complementWord folded = some sums ∧
      Nat256.ofWords? sums.words = some value ∧
      (sums.carry.toNat ≠ 0 → (value.add (.ofWord complementWord)).2 = false)) ∧
    reduceWide? wide.words = some (fieldModulus.reduce wide) ∧
    (fieldModulus.reduce wide).toNat = wide.toNat % fieldModulus.value.toNat ∧
    (fieldModulus.reduce wide).toNat < fieldModulus.value.toNat := by
  have large := fieldModulus.two_pow_255_lt
  refine ⟨?_, reduceWide?_words wide, fieldModulus.toNat_reduce wide, ?_⟩
  · obtain ⟨folded, sums, value, -, upper, five, number, fifth, held, alone, -⟩ := exists_folds wide
    exact ⟨folded, sums, value, upper, five, number, fifth, held, alone⟩
  · rw [fieldModulus.toNat_reduce]
    exact Nat.mod_lt _ (by omega)

theorem folds_fit_and_reduce_greatest :
    ∃ folded sums value, foldUpper? complementWord Nat512.greatest.words = some folded ∧
      foldFifth? complementWord folded = some sums ∧
      Nat256.ofWords? sums.words = some value ∧
      sums.carry.toNat = 1 ∧ (value.add (.ofWord complementWord)).2 = false := by
  obtain ⟨⟨folded, sums, value, upper, -, -, fifth, held, again⟩, -⟩ :=
    folds_fit_and_reduce .greatest
  have carried : (foldUpper? complementWord Nat512.greatest.words >>= foldFifth? complementWord).map
      (·.carry.toNat) = some 1 := by decide +kernel
  rw [upper, Option.bind_eq_bind, Option.bind_some, fifth] at carried
  have one : sums.carry.toNat = 1 := Option.some.inj carried
  exact ⟨folded, sums, value, upper, fifth, held, one, again (by omega)⟩

end FieldElement

end BitcoinSigning
