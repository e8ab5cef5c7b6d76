import BitcoinSigning.Taproot.Tree
import Mathlib.Data.Nat.Log
import Mathlib.Order.Bounds.Basic
/-!
The shape of a tree of scripts. Joining neighbours again and again, from the leaves up, makes
the same tree as to split the scripts from the root down, each time at the largest power of
two that leaves something over: an even number of nodes in front is joined by itself, so half
the power splits the nodes that come of one round of joining.
-/

namespace BitcoinSigning.TapTree

attribute [local instance (high)] instPowNat

/-! One round of joining. -/

theorem length_joinNeighbours : (nodes : List TapTree) →
    (joinNeighbours nodes).length = (nodes.length + 1) / 2
  | [] => rfl
  | [_] => by simp only [joinNeighbours, List.length_singleton]
  | _ :: _ :: rest => by
    simp only [joinNeighbours, List.length_cons, length_joinNeighbours rest]
    omega

theorem joinNeighbours_append : (front back : List TapTree) → 2 ∣ front.length →
    joinNeighbours (front ++ back) = joinNeighbours front ++ joinNeighbours back
  | [], _, _ => rfl
  | [_], _, even => absurd even (by rw [List.length_singleton]; decide)
  | left :: right :: rest, back, even => by
    rw [List.length_cons, List.length_cons] at even
    have others := joinNeighbours_append rest back (by omega)
    exact congrArg (branch left right :: ·) others

theorem joinNeighbours_take_drop {half : Nat} {nodes : List TapTree}
    (within : 2 * half ≤ nodes.length) :
    joinNeighbours (nodes.take (2 * half)) = (joinNeighbours nodes).take half ∧
      joinNeighbours (nodes.drop (2 * half)) = (joinNeighbours nodes).drop half := by
  have front : (nodes.take (2 * half)).length = 2 * half := List.length_take_of_le within
  have joined := joinNeighbours_append (nodes.take (2 * half)) (nodes.drop (2 * half))
    (by rw [front]; exact Nat.dvd_mul_right 2 half)
  have length : (joinNeighbours (nodes.take (2 * half))).length = half := by
    rw [length_joinNeighbours, front]
    omega
  rw [List.take_append_drop] at joined
  rw [joined, List.take_left' length, List.drop_left' length]
  exact ⟨rfl, rfl⟩

/-- A round of joining changes nothing about what all rounds together make. -/
theorem joinAll_joinNeighbours (nodes : List TapTree) :
    joinAll (joinNeighbours nodes) = joinAll nodes := by
  match nodes with
  | [] => rfl
  | [_] => rfl
  | left :: right :: rest =>
    rw [joinAll.eq_3]
    rfl

/-! All rounds. -/

/-- The root has the nodes up to a power of two on its left, if there are more of them but
not more than twice as many. -/
theorem joinAll_of_between (k : Nat) {nodes : List TapTree} (more : 2 ^ k < nodes.length)
    (few : nodes.length ≤ 2 ^ (k + 1)) :
    ∃ left right, joinAll (nodes.take (2 ^ k)) = some left ∧
      joinAll (nodes.drop (2 ^ k)) = some right ∧ joinAll nodes = some (branch left right) := by
  induction k generalizing nodes with
  | zero =>
    match nodes, more, few with
    | [left, right], _, _ =>
      refine ⟨left, right, ?_, ?_, ?_⟩ <;> simp only [Nat.pow_zero, List.take, List.drop, joinAll,
        joinNeighbours]
  | succ k ih =>
    rw [Nat.pow_succ'] at more few
    have length := length_joinNeighbours nodes
    obtain ⟨front, back⟩ := joinNeighbours_take_drop (Nat.le_of_lt more)
    obtain ⟨left, right, lefts, rights, whole⟩ := @ih (joinNeighbours nodes) (by omega) (by omega)
    rw [← front, joinAll_joinNeighbours] at lefts
    rw [← back, joinAll_joinNeighbours] at rights
    rw [joinAll_joinNeighbours] at whole
    exact ⟨left, right, by rwa [Nat.pow_succ'], by rwa [Nat.pow_succ'], whole⟩

theorem exists_power_between {n : Nat} (two : 2 ≤ n) : ∃ k : Nat, 2 ^ k < n ∧ n ≤ 2 ^ (k + 1) := by
  have below := Nat.pow_log_le_self 2 (x := n - 1) (by omega)
  have above := Nat.lt_pow_succ_log_self (b := 2) (by decide) (n - 1)
  exact ⟨Nat.log 2 (n - 1), by omega, by omega⟩

theorem isGreatest_power {k n : Nat} (more : 2 ^ k < n) (few : n ≤ 2 ^ (k + 1)) :
    IsGreatest {power | power < n ∧ ∃ exponent : Nat, power = 2 ^ exponent} (2 ^ k) := by
  refine ⟨⟨more, k, rfl⟩, ?_⟩
  rintro _ ⟨less, exponent, rfl⟩
  have lower : exponent < k + 1 :=
    (Nat.pow_lt_pow_iff_right (by decide)).mp (Nat.lt_of_lt_of_le less few)
  exact Nat.pow_le_pow_right (by decide) (Nat.le_of_lt_succ lower)

/-! The tree of scripts. -/

theorem ofScripts_of_between (k : Nat) {scripts : List Bytes} (more : 2 ^ k < scripts.length)
    (few : scripts.length ≤ 2 ^ (k + 1)) :
    ∃ left right, ofScripts (scripts.take (2 ^ k)) = some left ∧
      ofScripts (scripts.drop (2 ^ k)) = some right ∧
        ofScripts scripts = some (branch left right) := by
  simp only [ofScripts, List.map_take, List.map_drop]
  exact joinAll_of_between k (by rwa [List.length_map]) (by rwa [List.length_map])

theorem ofScripts_nil : ofScripts [] = none := by
  rw [ofScripts, List.map_nil, joinAll]

theorem ofScripts_singleton (script : Bytes) :
    ofScripts [script] = some (leaf tapscriptVersion script) := by
  rw [ofScripts, List.map_singleton, joinAll]

theorem ofScripts_eq_none_iff {scripts : List Bytes} : ofScripts scripts = none ↔ scripts = [] := by
  constructor
  · intro missing
    match scripts with
    | [] => rfl
    | [script] => cases (ofScripts_singleton script).symm.trans missing
    | first :: second :: others =>
      obtain ⟨k, more, few⟩ := exists_power_between (n := (first :: second :: others).length)
        (by rw [List.length_cons, List.length_cons]; omega)
      obtain ⟨left, right, -, -, whole⟩ := ofScripts_of_between k more few
      cases whole.symm.trans missing
  · rintro rfl
    exact ofScripts_nil

/-- The leaves from left to right, each behind its depth. -/
def leaves : TapTree → List (Nat × TapTree)
  | branch left right =>
    (left.leaves ++ right.leaves).map fun (depth, tree) => (depth + 1, tree)
  | tree => [(0, tree)]

theorem map_snd_leaves_branch (left right : TapTree) :
    (branch left right).leaves.map Prod.snd =
      left.leaves.map Prod.snd ++ right.leaves.map Prod.snd := by
  rw [leaves, List.map_map, ← List.map_append]
  rfl

theorem depth_leaves_branch {left right : TapTree} {bound : Nat}
    (lefts : ∀ found ∈ left.leaves, found.1 ≤ bound)
    (rights : ∀ found ∈ right.leaves, found.1 ≤ bound) :
    ∀ found ∈ (branch left right).leaves, found.1 ≤ bound + 1 := by
  rw [leaves]
  intro found member
  obtain ⟨below, inside, rfl⟩ := List.mem_map.mp member
  have within := List.forall_mem_append.mpr ⟨lefts, rights⟩ below inside
  exact Nat.succ_le_succ within

theorem leaves_ofScripts (k : Nat) {scripts : List Bytes} {tree : TapTree}
    (few : scripts.length ≤ 2 ^ k) (made : ofScripts scripts = some tree) :
    tree.leaves.map Prod.snd = scripts.map (leaf tapscriptVersion) ∧
      ∀ found ∈ tree.leaves, found.1 ≤ k := by
  induction k generalizing scripts tree with
  | zero =>
    match scripts, few with
    | [], _ => cases ofScripts_nil.symm.trans made
    | [script], _ =>
      obtain rfl := Option.some.inj ((ofScripts_singleton script).symm.trans made)
      exact ⟨rfl, List.forall_mem_singleton.mpr (Nat.le_refl 0)⟩
  | succ k ih =>
    rcases Nat.lt_or_ge (2 ^ k) scripts.length with more | fewer
    · have double : 2 ^ (k + 1) = 2 * 2 ^ k := Nat.pow_succ'
      obtain ⟨left, right, lefts, rights, whole⟩ := ofScripts_of_between k more few
      obtain rfl := Option.some.inj (whole.symm.trans made)
      obtain ⟨leftScripts, leftDepths⟩ := ih (by rw [List.length_take]; omega) lefts
      obtain ⟨rightScripts, rightDepths⟩ := ih (by rw [List.length_drop]; omega) rights
      refine ⟨?_, depth_leaves_branch leftDepths rightDepths⟩
      rw [map_snd_leaves_branch, leftScripts, rightScripts, ← List.map_append,
        List.take_append_drop]
    · obtain ⟨order, depths⟩ := ih fewer made
      exact ⟨order, fun found member => Nat.le_succ_of_le (depths found member)⟩

/-- There is a tree exactly if there are scripts. A script alone is a leaf; more scripts are
split at the largest power of two below their number, and the trees of both parts are joined.
So the leaves from left to right are the scripts as they were given, and none of them lies
deeper than the logarithm of their number, rounded up. -/
theorem ofScripts_splits :
    (∀ scripts, ofScripts scripts = none ↔ scripts = []) ∧
    (∀ script, ofScripts [script] = some (leaf tapscriptVersion script)) ∧
    (∀ scripts : List Bytes, 2 ≤ scripts.length → ∃ m,
      IsGreatest {power | power < scripts.length ∧ ∃ exponent : Nat, power = 2 ^ exponent} m ∧
        ∃ left right, ofScripts (scripts.take m) = some left ∧
          ofScripts (scripts.drop m) = some right ∧
            ofScripts scripts = some (branch left right)) ∧
    (∀ scripts tree, ofScripts scripts = some tree →
      tree.leaves.map Prod.snd = scripts.map (leaf tapscriptVersion) ∧
        ∀ found ∈ tree.leaves, found.1 ≤ Nat.clog 2 scripts.length) := by
  refine ⟨fun scripts => ofScripts_eq_none_iff, ofScripts_singleton, fun scripts two => ?_,
    fun scripts tree => leaves_ofScripts _ (Nat.le_pow_clog (by decide) _)⟩
  obtain ⟨k, more, few⟩ := exists_power_between two
  exact ⟨2 ^ k, isGreatest_power more few, ofScripts_of_between k more few⟩

def fiveScripts : List Bytes := [[0x51], [0x52], [0x53], [0x54], []]

theorem ofScripts_splits_five :
    ∃ left right, ofScripts fiveScripts = some (branch left right) ∧
      ofScripts (fiveScripts.take 4) = some left ∧ right = leaf tapscriptVersion [] ∧
      (branch left right).leaves.map Prod.snd = fiveScripts.map (leaf tapscriptVersion) ∧
        ∀ found ∈ (branch left right).leaves, found.1 ≤ Nat.clog 2 5 := by
  obtain ⟨-, single, splits, shape⟩ := ofScripts_splits
  obtain ⟨m, greatest, left, right, lefts, rights, whole⟩ := splits fiveScripts (by decide)
  obtain rfl : m = 4 := greatest.unique (isGreatest_power (k := 2) (by decide) (by decide))
  obtain rfl := Option.some.inj (rights.symm.trans (single []))
  exact ⟨left, _, whole, lefts, rfl, shape fiveScripts _ whole⟩

end BitcoinSigning.TapTree
