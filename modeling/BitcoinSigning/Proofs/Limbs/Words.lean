import BitcoinSigning.Limbs.Nat512
/-!
Numbers in any number of words, the least significant first.
-/

namespace BitcoinSigning

attribute [local instance (high)] instPowNat

namespace Words

def toNat (words : List UInt64) : Nat :=
  words.foldr (fun word number => word.toNat + 2 ^ (64 : Nat) * number) 0

theorem toNat_cons (word : UInt64) (words : List UInt64) :
    toNat (word :: words) = word.toNat + 2 ^ (64 : Nat) * toNat words := rfl

theorem two_pow_succ (count : Nat) :
    2 ^ (64 * (count + 1)) = 2 ^ (64 : Nat) * 2 ^ (64 * count) := by
  rw [Nat.mul_succ, Nat.add_comm, Nat.pow_add]

theorem toNat_append (low high : List UInt64) :
    toNat (low ++ high) = toNat low + 2 ^ (64 * low.length) * toNat high := by
  induction low with
  | nil =>
    change toNat high = 0 + 2 ^ 0 * toNat high
    omega
  | cons word rest ih =>
    rw [List.cons_append, toNat_cons, toNat_cons, ih, List.length_cons, two_pow_succ,
      Nat.mul_assoc]
    omega

theorem toNat_lt (words : List UInt64) : toNat words < 2 ^ (64 * words.length) := by
  induction words with
  | nil => exact Nat.one_pos
  | cons word rest ih =>
    have small := word.toNat_lt
    rw [toNat_cons, List.length_cons, two_pow_succ]
    omega

variable {words : List UInt64} {position : Nat} {word : UInt64}

theorem toNat_take_succ (found : words[position]? = some word) :
    toNat (words.take (position + 1)) =
      toNat (words.take position) + 2 ^ (64 * position) * word.toNat := by
  obtain ⟨inside, rfl⟩ := List.getElem?_eq_some_iff.mp found
  have alone : toNat [words[position]] = words[position].toNat := by
    rw [toNat_cons]
    change _ + 2 ^ 64 * 0 = _
    omega
  rw [List.take_succ_eq_append_getElem inside, toNat_append, alone,
    List.length_take_of_le (Nat.le_of_lt inside)]

theorem toNat_take_set (inside : position < words.length) (word : UInt64) :
    toNat ((words.set position word).take (position + 1)) =
      toNat (words.take position) + 2 ^ (64 * position) * word.toNat := by
  have stored : (words.set position word)[position]? = some word := List.getElem?_set_self inside
  rw [toNat_take_succ stored, List.take_set_of_le (Nat.le_refl position)]

theorem toNat_take_drop (inside : position ≤ words.length) :
    toNat words =
      toNat (words.take position) + 2 ^ (64 * position) * toNat (words.drop position) := by
  have parts := toNat_append (words.take position) (words.drop position)
  rwa [List.take_append_drop, List.length_take_of_le inside] at parts

theorem toNat_replicate_zero (count : Nat) : toNat (List.replicate count 0) = 0 := by
  induction count with
  | zero => rfl
  | succ count ih => rw [List.replicate_succ, toNat_cons, ih]; rfl

theorem take_drop_four (eight : words.length = 8) : (words.drop 4).take 4 = words.drop 4 := by
  apply List.take_of_length_le
  rw [List.length_drop]
  omega

theorem toNat_add_mul_lt {a b c : List UInt64} {limit : Nat} (shorter : a.length < limit)
    (shorter' : b.length + c.length < limit) :
    toNat a + toNat b * toNat c < 2 ^ (64 * limit) := by
  obtain ⟨before, rfl⟩ : ∃ before, limit = before + 1 := ⟨limit - 1, by omega⟩
  have ha : toNat a < 2 ^ (64 * before) :=
    Nat.lt_of_lt_of_le (toNat_lt a) (Nat.pow_le_pow_right (by decide) (by omega))
  have product : toNat b * toNat c < 2 ^ (64 * before) := calc
    _ < 2 ^ (64 * b.length) * 2 ^ (64 * c.length) := Nat.mul_lt_mul'' (toNat_lt b) (toNat_lt c)
    _ = 2 ^ (64 * b.length + 64 * c.length) := (Nat.pow_add ..).symm
    _ ≤ 2 ^ (64 * before) := Nat.pow_le_pow_right (by decide) (by omega)
  rw [two_pow_succ]
  omega

theorem toNat_inj {a b : List UInt64} (sameLength : a.length = b.length)
    (same : toNat a = toNat b) : a = b := by
  induction a generalizing b with
  | nil => exact (List.eq_nil_of_length_eq_zero sameLength.symm).symm
  | cons word rest ih =>
    cases b with
    | nil => cases sameLength
    | cons word' rest' =>
      have small := word.toNat_lt
      have small' := word'.toNat_lt
      rw [toNat_cons, toNat_cons] at same
      obtain rfl : word = word' := UInt64.toNat_inj.mp (by omega)
      rw [ih (Nat.succ.inj sameLength) (by omega)]

end Words

namespace Nat256

def words (a : Nat256) : List UInt64 := [a.w0, a.w1, a.w2, a.w3]

def ofWords? : List UInt64 → Option Nat256
  | [w0, w1, w2, w3] => some ⟨w0, w1, w2, w3⟩
  | _ => none

theorem toNat_words (a : Nat256) : Words.toNat a.words = a.toNat := by
  simp only [Words.toNat, words, List.foldr_cons, List.foldr_nil, toNat]
  omega

theorem exists_ofWords? {words : List UInt64} (four : words.length = 4) :
    ∃ a, ofWords? words = some a ∧ a.toNat = Words.toNat words := by
  match words, four with
  | [w0, w1, w2, w3], _ => exact ⟨⟨w0, w1, w2, w3⟩, rfl, (toNat_words _).symm⟩

end Nat256

namespace Nat512

def ofWords (words : List UInt64) : Nat512 :=
  ⟨words.getD 0 0, words.getD 1 0, words.getD 2 0, words.getD 3 0, words.getD 4 0,
    words.getD 5 0, words.getD 6 0, words.getD 7 0⟩

theorem words_ofWords {words : List UInt64} (length : words.length = 8) :
    (ofWords words).words = words := by
  match words, length with
  | [_, _, _, _, _, _, _, _], _ => rfl

theorem toNat_words (number : Nat512) : Words.toNat number.words = number.toNat := by
  simp only [Words.toNat, words, List.foldr_cons, List.foldr_nil, toNat, low, high, Nat256.toNat]
  omega

theorem toNat_take_words (number : Nat512) :
    Words.toNat (number.words.take 4) = number.low.toNat :=
  number.low.toNat_words

theorem toNat_drop_words (number : Nat512) :
    Words.toNat (number.words.drop 4) = number.high.toNat :=
  number.high.toNat_words

end Nat512

end BitcoinSigning
