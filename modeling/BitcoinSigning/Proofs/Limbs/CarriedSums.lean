import BitcoinSigning.Proofs.Limbs.Words
/-!
Loops that go through the positions of an array of words. At every position a sum of up to
128 bits is formed, its lower word is stored and its upper one is carried on. There is no
outcome at all where a sum or a product needs more than 128 bits, where a position is outside
of the array, or where a number is put into a word that does not hold it. An outcome thus
means that nothing was lost on the way.
-/

namespace BitcoinSigning

attribute [local instance (high)] instPowNat

namespace DoubleWord

def ofWord (word : UInt64) : DoubleWord := ⟨word, 0⟩

def ofNat? (number : Nat) : Option DoubleWord :=
  if number < 2 ^ (128 : Nat) then
    some ⟨number.toUInt64, (number / 2 ^ (64 : Nat)).toUInt64⟩
  else none

def add? (a b : DoubleWord) : Option DoubleWord := ofNat? (a.toNat + b.toNat)

def mul? (a b : DoubleWord) : Option DoubleWord := ofNat? (a.toNat * b.toNat)

def toWord? (a : DoubleWord) : Option UInt64 := if a.hi = 0 then some a.lo else none

theorem toNat_ofWord (word : UInt64) : (ofWord word).toNat = word.toNat := by
  rw [ofWord, toNat, UInt64.toNat_zero, Nat.mul_zero, Nat.add_zero]

theorem exists_ofNat? {number : Nat} (fits : number < 2 ^ (128 : Nat)) :
    ∃ a, ofNat? number = some a ∧ a.toNat = number := by
  refine ⟨_, if_pos fits, ?_⟩
  have low : number.toUInt64.toNat = number % 2 ^ 64 := UInt64.toNat_ofNat'
  have high : (number / 2 ^ 64).toUInt64.toNat = number / 2 ^ 64 % 2 ^ 64 := UInt64.toNat_ofNat'
  rw [toNat, low, high]
  omega

theorem exists_add? {a b : DoubleWord} (fits : a.toNat + b.toNat < 2 ^ (128 : Nat)) :
    ∃ sum, a.add? b = some sum ∧ sum.toNat = a.toNat + b.toNat :=
  exists_ofNat? fits

theorem exists_mul? (a b : UInt64) :
    ∃ product, (ofWord a).mul? (ofWord b) = some product ∧
      product.toNat = a.toNat * b.toNat ∧
      product.toNat ≤ (2 ^ (64 : Nat) - 1) * (2 ^ (64 : Nat) - 1) := by
  have ha := a.toNat_lt
  have hb := b.toNat_lt
  have most : a.toNat * b.toNat ≤ (2 ^ 64 - 1) * (2 ^ 64 - 1) :=
    Nat.mul_le_mul (by omega) (by omega)
  obtain ⟨product, multiplied, product_eq⟩ :=
    exists_ofNat? (show a.toNat * b.toNat < 2 ^ 128 by omega)
  rw [← toNat_ofWord a, ← toNat_ofWord b] at multiplied
  exact ⟨product, multiplied, product_eq, by rwa [product_eq]⟩

theorem exists_mulAdd? (acc a b : UInt64) :
    ∃ product sum, (ofWord a).mul? (ofWord b) = some product ∧
      (ofWord acc).add? product = some sum ∧
      sum.toNat = acc.toNat + a.toNat * b.toNat ∧ sum.toNat + 2 ^ (64 : Nat) ≤ 2 ^ (128 : Nat) := by
  have hacc := acc.toNat_lt
  obtain ⟨product, multiplied, product_eq, most⟩ := exists_mul? a b
  obtain ⟨sum, added, sum_eq⟩ := exists_add? (show (ofWord acc).toNat + product.toNat < 2 ^ 128 by
    rw [toNat_ofWord]
    omega)
  rw [toNat_ofWord] at sum_eq
  exact ⟨product, sum, multiplied, added, by rw [sum_eq, product_eq], by omega⟩

theorem exists_toWord? {a : DoubleWord} (fits : a.toNat < 2 ^ (64 : Nat)) :
    ∃ word, a.toWord? = some word ∧ word.toNat = a.toNat := by
  rw [toNat] at fits ⊢
  have none : a.hi.toNat = 0 := by omega
  refine ⟨a.lo, if_pos (UInt64.toNat_inj.mp none), ?_⟩
  omega

end DoubleWord

theorem exists_foldlM_range {σ : Type} {body : σ → Nat → Option σ} {motive : Nat → σ → Prop}
    {count : Nat} {start : σ} (first : motive 0 start)
    (step : ∀ i < count, ∀ state, motive i state →
      ∃ later, body state i = some later ∧ motive (i + 1) later) :
    ∃ state, (List.range count).foldlM body start = some state ∧ motive count state := by
  induction count with
  | zero => exact ⟨start, rfl, first⟩
  | succ count ih =>
    obtain ⟨state, passes, kept⟩ := ih fun i below => step i (Nat.lt_succ_of_lt below)
    obtain ⟨later, pass, kept'⟩ := step count (Nat.lt_succ_self count) state kept
    refine ⟨later, ?_, kept'⟩
    rw [List.range_succ, List.foldlM_append, passes]
    simp only [Option.bind_eq_bind, Option.bind_some, List.foldlM_cons, List.foldlM_nil, pass]
    rfl

namespace Words

def put? (words : List UInt64) (position : Nat) (word : UInt64) : Option (List UInt64) :=
  if position < words.length then some (words.set position word) else none

end Words

/-- An array while its words are stored one after another, and what is carried on. -/
structure Carrying where
  words : List UInt64
  carry : DoubleWord

namespace Carrying

def ofWords (words : List UInt64) : Carrying := ⟨words, .ofWord 0⟩

/-- The carry is added, the lower word of the sum stored and the upper one carried on. -/
def store? (state : Carrying) (position : Nat) (addend : DoubleWord) : Option Carrying := do
  let sum ← addend.add? state.carry
  return ⟨← Words.put? state.words position sum.lo, .ofWord sum.hi⟩

def settled? (state : Carrying) : Option (List UInt64) :=
  if state.carry.toNat = 0 then some state.words else none

/-- A carry runs on from a position for as long as there is one and the array lasts. -/
def runOn? (limit position : Nat) (state : Carrying) : Option Carrying :=
  if state.carry.toNat ≠ 0 ∧ position < limit then do
    let word ← state.words[position]?
    let later ← state.store? position (.ofWord word)
    later.runOn? limit (position + 1)
  else some state
termination_by limit - position

/-- The words before a position are done, and together with the carry they make up a number.
The others are still as they were at the start. -/
structure DoneBefore (start : Carrying) (position number : Nat) (state : Carrying) : Prop where
  length : state.words.length = start.words.length
  others : state.words.drop position = start.words.drop position
  carry : state.carry = start.carry ∨ state.carry.toNat < 2 ^ (64 : Nat)
  number : Words.toNat (state.words.take position) + 2 ^ (64 * position) * state.carry.toNat =
    number

variable {start state : Carrying} {position number : Nat}

theorem carry_ofWords_lt (words : List UInt64) : (ofWords words).carry.toNat < 2 ^ (64 : Nat) := by
  change 0 < 2 ^ (64 : Nat)
  decide

theorem doneBefore_self (start : Carrying) (position : Nat) :
    start.DoneBefore position
      (Words.toNat (start.words.take position) + 2 ^ (64 * position) * start.carry.toNat) start :=
  ⟨rfl, rfl, .inl rfl, rfl⟩

theorem doneBefore_zero (carried : start.carry.toNat = number) :
    start.DoneBefore 0 number start := by
  refine ⟨rfl, rfl, .inl rfl, ?_⟩
  rw [List.take_zero, Nat.mul_zero, Nat.pow_zero, Nat.one_mul, carried]
  exact Nat.zero_add _

theorem DoneBefore.getElem? (done : start.DoneBefore position number state) :
    state.words[position]? = start.words[position]? := by
  rw [← List.head?_drop, ← List.head?_drop, done.others]

theorem DoneBefore.carry_lt (done : start.DoneBefore position number state)
    (small : start.carry.toNat < 2 ^ (64 : Nat)) : state.carry.toNat < 2 ^ (64 : Nat) := by
  rcases done.carry with unchanged | less
  · rwa [unchanged]
  · exact less

/-- The words that are not done yet are added behind the number. -/
theorem DoneBefore.total (done : start.DoneBefore position number state)
    (inside : position ≤ start.words.length) :
    Words.toNat state.words + 2 ^ (64 * position) * state.carry.toNat =
      number + 2 ^ (64 * position) * Words.toNat (start.words.drop position) := by
  rw [Words.toNat_take_drop (show position ≤ state.words.length by rwa [done.length]), done.others,
    ← done.number]
  omega

theorem DoneBefore.store (done : start.DoneBefore position number state)
    (inside : position < start.words.length) (addend : DoubleWord)
    (fits : addend.toNat + state.carry.toNat < 2 ^ (128 : Nat)) :
    ∃ later, state.store? position addend = some later ∧
      start.DoneBefore (position + 1) (number + 2 ^ (64 * position) * addend.toNat) later := by
  obtain ⟨sum, added, sum_eq⟩ := DoubleWord.exists_add? fits
  have within : position < state.words.length := by rwa [done.length]
  refine ⟨⟨state.words.set position sum.lo, .ofWord sum.hi⟩, ?_, ?_⟩
  · rw [store?, added]
    simp only [Option.bind_eq_bind, Option.bind_some, Words.put?, if_pos within]
    rfl
  constructor
  · rw [List.length_set, done.length]
  · rw [List.drop_set_of_lt (show position < position + 1 by omega), ← List.drop_drop, done.others,
      List.drop_drop]
  · refine .inr ?_
    rw [DoubleWord.toNat_ofWord]
    exact sum.hi.toNat_lt
  · have scaled := congrArg (2 ^ (64 * position) * ·) sum_eq
    rw [Words.toNat_take_set within, DoubleWord.toNat_ofWord, Words.two_pow_succ,
      Nat.mul_comm (2 ^ 64), Nat.mul_assoc, ← done.number]
    simp only [DoubleWord.toNat, Nat.mul_add] at *
    omega

/-- Nothing is left of the carry in the end, if all of it fits in the array. -/
theorem exists_runOn? {limit : Nat} (length : state.words.length = limit)
    (within : position ≤ limit) (small : state.carry.toNat < 2 ^ (64 : Nat))
    (fits : Words.toNat state.words + 2 ^ (64 * position) * state.carry.toNat < 2 ^ (64 * limit)) :
    ∃ later words, state.runOn? limit position = some later ∧ later.settled? = some words ∧
      words.length = limit ∧
      Words.toNat words = Words.toNat state.words + 2 ^ (64 * position) * state.carry.toNat := by
  fun_induction runOn? limit position state with
  | case1 position state further ih =>
    have inside : position < state.words.length := by
      rw [length]
      exact further.2
    have found : state.words[position]? = some state.words[position] :=
      List.getElem?_eq_getElem inside
    have word := state.words[position].toNat_lt
    obtain ⟨later, stored, done⟩ :=
      (doneBefore_self state position).store inside (.ofWord state.words[position]) (by
        rw [DoubleWord.toNat_ofWord]
        omega)
    have total := done.total inside
    have before := Words.toNat_take_drop (show position + 1 ≤ state.words.length from inside)
    rw [Words.toNat_take_succ found] at before
    rw [DoubleWord.toNat_ofWord] at total
    have same : Words.toNat later.words + 2 ^ (64 * (position + 1)) * later.carry.toNat =
        Words.toNat state.words + 2 ^ (64 * position) * state.carry.toNat := by omega
    rw [found]
    simp only [Option.bind_eq_bind, Option.bind_some, stored]
    rw [← same]
    exact ih later (done.length.trans length) further.2 (done.carry_lt small) (by rwa [same])
  | case2 position state last =>
    have none : state.carry.toNat = 0 := by
      rcases Nat.eq_zero_or_pos state.carry.toNat with none | more
      · exact none
      · obtain rfl : position = limit := by omega
        have least := Nat.mul_le_mul_left (2 ^ (64 * position)) more
        omega
    refine ⟨state, state.words, rfl, if_pos none, length, ?_⟩
    rw [none, Nat.mul_zero, Nat.add_zero]

end Carrying

namespace Words

def addProductAt? (word : UInt64) (factors : List UInt64) (offset : Nat) (state : Carrying)
    (i : Nat) : Option Carrying := do
  let product ← (DoubleWord.ofWord word).mul? (.ofWord (← factors[i]?))
  let sum ← (DoubleWord.ofWord (← state.words[offset + i]?)).add? product
  state.store? (offset + i) sum

def addProduct? (word : UInt64) (factors : List UInt64) (offset : Nat) (words : List UInt64) :
    Option Carrying :=
  (List.range factors.length).foldlM (addProductAt? word factors offset) (.ofWords words)

variable {factors words : List UInt64} {offset : Nat}

theorem exists_addProductAt? (word : UInt64) {i : Nat} {state : Carrying}
    (below : i < factors.length) (inside : offset + i < words.length)
    (done : (Carrying.ofWords words).DoneBefore (offset + i) (toNat (words.take (offset + i)) +
      2 ^ (64 * offset) * (word.toNat * toNat (factors.take i))) state) :
    ∃ later, addProductAt? word factors offset state i = some later ∧
      (Carrying.ofWords words).DoneBefore (offset + (i + 1))
        (toNat (words.take (offset + (i + 1))) +
          2 ^ (64 * offset) * (word.toNat * toNat (factors.take (i + 1)))) later := by
  have factor : factors[i]? = some factors[i] := List.getElem?_eq_getElem below
  have there : words[offset + i]? = some words[offset + i] := List.getElem?_eq_getElem inside
  have same : state.words[offset + i]? = words[offset + i]? := done.getElem?
  obtain ⟨product, sum, multiplied, added, sum_eq, fits⟩ :=
    DoubleWord.exists_mulAdd? words[offset + i] word factors[i]
  have small := done.carry_lt (Carrying.carry_ofWords_lt words)
  obtain ⟨later, stored, done'⟩ := done.store inside sum (by omega)
  have number : toNat (words.take (offset + (i + 1))) +
      2 ^ (64 * offset) * (word.toNat * toNat (factors.take (i + 1))) =
        toNat (words.take (offset + i)) +
          2 ^ (64 * offset) * (word.toNat * toNat (factors.take i)) +
            2 ^ (64 * (offset + i)) * sum.toNat := calc
    _ = toNat (words.take (offset + i)) + 2 ^ (64 * (offset + i)) * words[offset + i].toNat +
        2 ^ (64 * offset) *
          (word.toNat * (toNat (factors.take i) + 2 ^ (64 * i) * factors[i].toNat)) := by
      rw [← Nat.add_assoc, toNat_take_succ there, toNat_take_succ factor]
    _ = toNat (words.take (offset + i)) +
        2 ^ (64 * offset) * (word.toNat * toNat (factors.take i)) +
          2 ^ (64 * (offset + i)) *
            (words[offset + i].toNat + word.toNat * factors[i].toNat) := by
      rw [Nat.mul_add 64, Nat.pow_add]
      simp only [Nat.mul_add, Nat.mul_assoc, Nat.mul_left_comm word.toNat]
      omega
    _ = _ := by rw [sum_eq]
  refine ⟨later, ?_, number ▸ done'⟩
  rw [addProductAt?, factor, same, there]
  simp only [Option.bind_eq_bind, Option.bind_some, multiplied, added, stored]

theorem exists_addProduct? (word : UInt64) (room : offset + factors.length ≤ words.length) :
    ∃ state, addProduct? word factors offset words = some state ∧
      (Carrying.ofWords words).DoneBefore (offset + factors.length)
        (toNat (words.take (offset + factors.length)) +
          2 ^ (64 * offset) * (word.toNat * toNat factors)) state := by
  have loop := exists_foldlM_range (motive := fun i =>
    (Carrying.ofWords words).DoneBefore (offset + i) (toNat (words.take (offset + i)) +
      2 ^ (64 * offset) * (word.toNat * toNat (factors.take i))))
    ((Carrying.ofWords words).doneBefore_self offset)
    fun i below state done => exists_addProductAt? word below (by omega) done
  rwa [List.take_length] at loop

end Words

end BitcoinSigning
