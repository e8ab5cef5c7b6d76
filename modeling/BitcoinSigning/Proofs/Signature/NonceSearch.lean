import BitcoinSigning.Signature.Nonce
import Mathlib.Data.Fintype.Pigeonhole
import Mathlib.Logic.Function.Iterate
/-!
Searches for a nonce have no limit. A generator has one of finitely many states
and moves from each to a fixed next one, so a search that has come past all of
them only repeats itself. That makes a search the loop that stops at the first
accepted candidate, or else never.
-/

namespace BitcoinSigning.NonceGenerator

variable {α : Type} {accept : Bytes32 → Option α} {g : NonceGenerator}

/-! States return. -/

private theorem ofBigEndian_lt_two_pow (value : Bytes32) :
    Bytes.ofBigEndian value.bytes < 2 ^ 256 := by
  have below := Bytes.ofBigEndian_lt value.bytes
  rwa [value.length_eq] at below

private def code (g : NonceGenerator) : Fin stateCount :=
  ⟨2 ^ 256 * Bytes.ofBigEndian g.key.bytes + Bytes.ofBigEndian g.value.bytes, by
    have high := ofBigEndian_lt_two_pow g.key
    have low := ofBigEndian_lt_two_pow g.value
    rw [stateCount]
    omega⟩

private theorem code_injective : Function.Injective code := by
  intro g h same
  have low := ofBigEndian_lt_two_pow g.value
  have low' := ofBigEndian_lt_two_pow h.value
  have numbers := congrArg Fin.val same
  simp only [code] at numbers
  have inj {a b : Bytes32} (equal : Bytes.ofBigEndian a.bytes = Bytes.ofBigEndian b.bytes) :
      a = b := Bytes32.ext (Bytes.ofBigEndian_inj (by rw [a.length_eq, b.length_eq]) equal)
  obtain ⟨key, value⟩ := g
  obtain ⟨key', value'⟩ := h
  simp only at numbers low low'
  rw [inj (show Bytes.ofBigEndian key.bytes = Bytes.ofBigEndian key'.bytes by omega),
    inj (show Bytes.ofBigEndian value.bytes = Bytes.ofBigEndian value'.bytes by omega)]

variable {count : Nat}

/-- Among more states in a row than there are states, one comes twice. -/
private theorem exists_return {code : NonceGenerator → Fin count}
    (injective : Function.Injective code) (g : NonceGenerator) :
    ∃ i j, i < j ∧ j ≤ count ∧ advance^[i] g = advance^[j] g := by
  have more : Fintype.card (Fin count) < Fintype.card (Fin (count + 1)) := by
    rw [Fintype.card_fin, Fintype.card_fin]
    exact Nat.lt_succ_self count
  obtain ⟨i, j, different, same⟩ := Fintype.exists_ne_map_eq_of_card_lt
    (fun n : Fin (count + 1) => code (advance^[n.val] g)) more
  have same := injective same
  have bound := i.isLt
  have bound' := j.isLt
  rcases Nat.lt_or_gt_of_ne (Fin.val_ne_of_ne different) with less | greater
  · exact ⟨i, j, less, by omega, same⟩
  · exact ⟨j, i, greater, by omega, same.symm⟩

private theorem forall_of_forall_lt {code : NonceGenerator → Fin count}
    (injective : Function.Injective code) (holds : NonceGenerator → Prop)
    (early : ∀ n < count, holds (advance^[n] g)) (n : Nat) : holds (advance^[n] g) := by
  obtain ⟨i, j, less, bound, same⟩ := exists_return injective g
  induction n using Nat.strong_induction_on with
  | _ n earlier =>
    by_cases inside : n < count
    · exact early n inside
    · have back := earlier (i + (n - j)) (by omega)
      rw [Nat.add_comm, Function.iterate_add_apply, same, ← Function.iterate_add_apply] at back
      rwa [Nat.sub_add_cancel (by omega)] at back

/-! Searches with a limit. -/

theorem search_add_one (limit : Nat) :
    search accept (limit + 1) g =
      match accept g.candidate with
      | some result => some (result, g.advance)
      | none => search accept limit g.advance := rfl

theorem search_eq_none_iff (limit : Nat) :
    search accept limit g = none ↔ ∀ n < limit, accept (advance^[n] g).candidate = none := by
  induction limit generalizing g with
  | zero => exact iff_of_true rfl fun n few => absurd few (Nat.not_lt_zero n)
  | succ limit ih =>
    rw [search]
    cases found : accept g.candidate with
    | some result =>
      refine iff_of_false (fun none => nomatch none) fun rejected => ?_
      exact nomatch found.symm.trans (rejected 0 (Nat.succ_pos limit))
    | none =>
      refine ih.trans ⟨fun rejected n few => ?_, fun rejected n few => ?_⟩
      · cases n with
        | zero => exact found
        | succ n => exact rejected n (Nat.lt_of_succ_lt_succ few)
      · exact rejected (n + 1) (Nat.succ_lt_succ few)

private theorem search_mono {limit limit' : Nat} (more : limit ≤ limit')
    {result : α × NonceGenerator} (found : search accept limit g = some result) :
    search accept limit' g = some result := by
  induction limit generalizing g limit' with
  | zero => exact nomatch found
  | succ limit ih =>
    cases limit' with
    | zero => exact absurd more (Nat.not_succ_le_zero limit)
    | succ limit' =>
      rw [search] at found ⊢
      cases first : accept g.candidate with
      | some result' =>
        rw [first] at found
        exact found
      | none =>
        rw [first] at found
        exact ih (Nat.le_of_succ_le_succ more) found

/-! Searches without a limit. -/

private theorem search_succ {code : NonceGenerator → Fin count}
    (injective : Function.Injective code) :
    search accept (count + 1) g = search accept count g := by
  cases found : search accept count g with
  | some result => exact search_mono (Nat.le_succ count) found
  | none =>
    rw [search_eq_none_iff] at found ⊢
    exact fun n _ =>
      forall_of_forall_lt injective (fun state => accept state.candidate = none) found n

theorem searchAll_eq_none_iff :
    g.searchAll accept = none ↔ ∀ n, accept (advance^[n] g).candidate = none := by
  rw [searchAll, search_eq_none_iff]
  exact ⟨forall_of_forall_lt code_injective fun state => accept state.candidate = none,
    fun rejected n _ => rejected n⟩

/-- A search is a loop: it looks at the next candidate and goes on after it. -/
theorem searchAll_eq :
    g.searchAll accept =
      match accept g.candidate with
      | some result => some (result, g.advance)
      | none => g.advance.searchAll accept := by
  unfold searchAll
  rw [← search_succ code_injective, search_add_one]

theorem searchAll_of_accept {result : α} (first : accept g.candidate = some result) :
    g.searchAll accept = some (result, g.advance) := by
  rw [searchAll_eq, first]

theorem searchAll_of_reject (first : accept g.candidate = none) :
    g.searchAll accept = g.advance.searchAll accept := by
  rw [searchAll_eq, first]

/-- That a search ends: its first accepted candidate, as a derivation. -/
inductive Ends (accept : Bytes32 → Option α) : NonceGenerator → Prop
  | accepted {g : NonceGenerator} {result : α} (first : accept g.candidate = some result) :
    Ends accept g
  | rejected {g : NonceGenerator} (first : accept g.candidate = none)
    (later : Ends accept g.advance) : Ends accept g

theorem ends_of_searchAll {found : α × NonceGenerator} (ends : g.searchAll accept = some found) :
    Ends accept g := by
  have somewhere : ∃ n, accept (advance^[n] g).candidate ≠ none := by
    rw [← not_forall, ← searchAll_eq_none_iff, ends]
    exact Option.some_ne_none found
  clear ends
  obtain ⟨n, atN⟩ := somewhere
  induction n generalizing g with
  | zero =>
    obtain ⟨result, first⟩ := Option.ne_none_iff_exists'.mp atN
    exact .accepted first
  | succ n ih =>
    cases first : accept g.candidate with
    | some result => exact .accepted first
    | none => exact .rejected first (ih atN)

/-- What a search finds is the first candidate that is accepted. -/
theorem searchAll_eq_some_iff {result : α} {rest : NonceGenerator} :
    g.searchAll accept = some (result, rest) ↔
      ∃ n, (∀ i < n, accept (advance^[i] g).candidate = none) ∧
        accept (advance^[n] g).candidate = some result ∧ rest = advance^[n + 1] g := by
  constructor
  · intro found
    induction ends_of_searchAll found with
    | accepted first =>
      rw [searchAll_of_accept first] at found
      obtain ⟨rfl, rfl⟩ := Prod.mk.inj (Option.some.inj found)
      exact ⟨0, fun i few => absurd few (Nat.not_lt_zero i), first, rfl⟩
    | rejected first _ ih =>
      rw [searchAll_of_reject first] at found
      obtain ⟨n, before, atN, rfl⟩ := ih found
      refine ⟨n + 1, fun i few => ?_, atN, rfl⟩
      cases i with
      | zero => exact first
      | succ i => exact before i (Nat.lt_of_succ_lt_succ few)
  · rintro ⟨n, before, atN, rfl⟩
    induction n generalizing g with
    | zero => exact searchAll_of_accept atN
    | succ n ih =>
      have first : accept g.candidate = none := before 0 (Nat.succ_pos n)
      rw [searchAll_of_reject first]
      exact ih (fun i few => before (i + 1) (Nat.succ_lt_succ few)) atN

/-! The nonces, which are those candidates that are usable scalars. -/

section Next

variable {count : Nat} {nonce : Scalar}

theorem next_of_accept (first : Scalar.ofBytesNonzero? g.candidate = some nonce) :
    g.next = some (nonce, g.advance) :=
  searchAll_of_accept first

theorem next_of_reject (first : Scalar.ofBytesNonzero? g.candidate = none) :
    g.next = g.advance.next :=
  searchAll_of_reject first

theorem take_succ_of_accept (first : Scalar.ofBytesNonzero? g.candidate = some nonce) :
    g.take (count + 1) = (g.advance.take count).map (nonce :: ·) := by
  rw [take, next_of_accept first, Option.map_eq_bind]
  rfl

theorem take_succ_of_reject (first : Scalar.ofBytesNonzero? g.candidate = none) :
    g.take (count + 1) = g.advance.take (count + 1) := by
  rw [take, next_of_reject first, take]

end Next

theorem take_succ_eq_some_iff {count : Nat} {nonces : List Scalar} :
    g.take (count + 1) = some nonces ↔ ∃ first rest others,
      g.next = some (first, rest) ∧ rest.take count = some others ∧ nonces = first :: others := by
  rw [take]
  constructor
  · intro taken
    obtain ⟨⟨first, rest⟩, found, taken⟩ := Option.bind_eq_some_iff.mp taken
    obtain ⟨others, takenRest, listed⟩ := Option.bind_eq_some_iff.mp taken
    exact ⟨first, rest, others, found, takenRest, (Option.some.inj listed).symm⟩
  · rintro ⟨first, rest, others, found, takenRest, rfl⟩
    rw [found]
    change (rest.take count).bind _ = _
    rw [takenRest]
    rfl

theorem exists_of_mem_take {count : Nat} {nonces : List Scalar}
    (taken : g.take count = some nonces) {nonce : Scalar} (member : nonce ∈ nonces) :
    ∃ n, Scalar.ofBytesNonzero? (advance^[n] g).candidate = some nonce := by
  induction count generalizing g nonces with
  | zero =>
    rw [← Option.some.inj taken] at member
    exact absurd member List.not_mem_nil
  | succ count ih =>
    obtain ⟨first, rest, others, found, takenRest, rfl⟩ := take_succ_eq_some_iff.mp taken
    obtain ⟨n, -, atN, rfl⟩ := searchAll_eq_some_iff.mp found
    rcases List.mem_cons.mp member with rfl | later
    · exact ⟨n, atN⟩
    · obtain ⟨n', atN'⟩ := ih takenRest later
      rw [← Function.iterate_add_apply] at atN'
      exact ⟨n' + (n + 1), atN'⟩

section Accept

variable {use : Scalar → Option α} (uses : ∀ c, accept c = (Scalar.ofBytesNonzero? c).bind use)

include uses

theorem exists_take_of_searchAll {result : α} {rest : NonceGenerator}
    (found : g.searchAll accept = some (result, rest)) :
    ∃ earlier nonce, g.take (earlier.length + 1) = some (earlier ++ [nonce]) ∧
      (∀ k ∈ earlier, use k = none) ∧ use nonce = some result := by
  induction ends_of_searchAll found with
  | @accepted g _ first =>
    rw [searchAll_of_accept first] at found
    obtain ⟨rfl, rfl⟩ := Prod.mk.inj (Option.some.inj found)
    rw [uses] at first
    obtain ⟨nonce, usable, used⟩ := Option.bind_eq_some_iff.mp first
    exact ⟨[], nonce, take_succ_of_accept usable, fun k none => absurd none List.not_mem_nil, used⟩
  | @rejected g first _ ih =>
    rw [searchAll_of_reject first] at found
    obtain ⟨earlier, nonce, taken, unused, used⟩ := ih found
    rw [uses] at first
    cases usable : Scalar.ofBytesNonzero? g.candidate with
    | none =>
      rw [← take_succ_of_reject usable] at taken
      exact ⟨earlier, nonce, taken, unused, used⟩
    | some k =>
      rw [usable] at first
      refine ⟨k :: earlier, nonce, ?_, List.forall_mem_cons.mpr ⟨first, unused⟩, used⟩
      rw [List.length_cons, take_succ_of_accept usable, taken]
      rfl

theorem searchAll_eq_none_iff_take :
    g.searchAll accept = none ↔
      ∀ count nonces, g.take count = some nonces → ∀ k ∈ nonces, use k = none := by
  constructor
  · intro endless count nonces taken k member
    obtain ⟨n, usable⟩ := exists_of_mem_take taken member
    have rejected := searchAll_eq_none_iff.mp endless n
    rwa [uses, usable] at rejected
  · intro unused
    cases found : g.searchAll accept with
    | none => rfl
    | some result =>
      obtain ⟨earlier, nonce, taken, -, used⟩ := exists_take_of_searchAll uses found
      have none := unused _ _ taken nonce (List.mem_append_right earlier List.mem_cons_self)
      exact nomatch none.symm.trans used

end Accept

end BitcoinSigning.NonceGenerator
