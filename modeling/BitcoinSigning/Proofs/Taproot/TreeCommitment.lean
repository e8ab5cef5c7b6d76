import BitcoinSigning.Proofs.Encoding.PrefixFree
import BitcoinSigning.Proofs.Hash.Separation
import BitcoinSigning.Taproot.Tree
import Mathlib.Logic.Relation
/-!
What the digest of a tree of scripts commits to. It does not depend on the sides of children, nor
on which subtrees are known by their digests alone. Of a tree that is known to its leaves it
leaves nothing else open, as long as no two of the strings that are digested collide.
-/

namespace BitcoinSigning

namespace TapTree

/-! Changes inside a tree. -/

/-- One subtree is replaced by another one, as the rule allows. -/
inductive Somewhere (rule : TapTree → TapTree → Prop) : TapTree → TapTree → Prop
  | here {a b : TapTree} (allowed : rule a b) : Somewhere rule a b
  | left {a b : TapTree} (other : TapTree) (inside : Somewhere rule a b) :
    Somewhere rule (branch a other) (branch b other)
  | right {a b : TapTree} (other : TapTree) (inside : Somewhere rule a b) :
    Somewhere rule (branch other a) (branch other b)

inductive Swaps : TapTree → TapTree → Prop
  | children (left right : TapTree) : Swaps (branch left right) (branch right left)

/-- A subtree becomes its digest. -/
inductive Prunes : TapTree → TapTree → Prop
  | subtree (tree : TapTree) : Prunes tree (pruned tree.hash)

def SwapsOrPrunes (a b : TapTree) : Prop := Swaps a b ∨ Prunes a b

def Edits (rule : TapTree → TapTree → Prop) : TapTree → TapTree → Prop :=
  Relation.ReflTransGen (Somewhere rule)

theorem Edits.branch {rule : TapTree → TapTree → Prop} {left left' right right' : TapTree}
    (lefts : Edits rule left left') (rights : Edits rule right right') :
    Edits rule (branch left right) (branch left' right') := by
  have first : Edits rule (.branch left right) (.branch left' right) :=
    lefts.lift (TapTree.branch · right) fun _ _ => .left right
  have second : Edits rule (.branch left' right) (.branch left' right') :=
    rights.lift (TapTree.branch left') fun _ _ => .right left'
  exact first.trans second

/-! The digest of a branch. -/

def branchMessage (a b : Bytes32) : Bytes :=
  if b.bytes < a.bytes then b.bytes ++ a.bytes else a.bytes ++ b.bytes

theorem branchHash_eq (a b : Bytes32) :
    branchHash a b = HashTag.taprootBranch.hash (branchMessage a b) := by
  by_cases less : b.bytes < a.bytes
  · simp only [branchHash, branchMessage, if_pos less]
  · simp only [branchHash, branchMessage, if_neg less]

theorem branchMessage_comm (a b : Bytes32) : branchMessage a b = branchMessage b a := by
  unfold branchMessage
  by_cases less : a.bytes < b.bytes
  · rw [if_pos less, if_neg (List.lt_asymm less)]
  by_cases greater : b.bytes < a.bytes
  · rw [if_neg less, if_pos greater]
  · rw [if_neg less, if_neg greater, List.le_antisymm less greater]

theorem branchMessage_cases (a b : Bytes32) :
    branchMessage a b = a.bytes ++ b.bytes ∨ branchMessage a b = b.bytes ++ a.bytes := by
  unfold branchMessage
  split
  · exact Or.inr rfl
  · exact Or.inl rfl

theorem eq_of_append_eq {a b c d : Bytes32} (same : a.bytes ++ b.bytes = c.bytes ++ d.bytes) :
    a = c ∧ b = d := by
  obtain ⟨first, second⟩ := List.append_inj same (a.length_eq.trans c.length_eq.symm)
  exact ⟨Bytes32.ext first, Bytes32.ext second⟩

/-- A branch tells its children apart, but not their sides. -/
theorem eq_or_swapped_of_branchMessage_eq {a b c d : Bytes32}
    (same : branchMessage a b = branchMessage c d) : a = c ∧ b = d ∨ a = d ∧ b = c := by
  rcases branchMessage_cases a b with form | form <;>
    rcases branchMessage_cases c d with form' | form' <;> rw [form, form'] at same
  · exact Or.inl (eq_of_append_eq same)
  · exact Or.inr (eq_of_append_eq same)
  · exact Or.inr (eq_of_append_eq same).symm
  · exact Or.inl (eq_of_append_eq same).symm

/-! Changes that the digest does not show. -/

theorem hash_of_swapsOrPrunes {a b : TapTree} (allowed : SwapsOrPrunes a b) : b.hash = a.hash := by
  cases allowed with
  | inl swaps =>
    cases swaps
    rw [hash, hash, branchHash_eq, branchHash_eq, branchMessage_comm]
  | inr prunes =>
    cases prunes
    rfl

theorem hash_of_somewhere {rule : TapTree → TapTree → Prop}
    (keeps : ∀ {a b : TapTree}, rule a b → b.hash = a.hash) {a b : TapTree}
    (change : Somewhere rule a b) : b.hash = a.hash := by
  induction change with
  | here allowed => exact keeps allowed
  | left other _ ih => rw [hash, hash, ih]
  | right other _ ih => rw [hash, hash, ih]

theorem hash_of_edits {tree edited : TapTree} (edits : Edits SwapsOrPrunes tree edited) :
    edited.hash = tree.hash := by
  induction edits with
  | refl => rfl
  | tail _ change ih => rw [hash_of_somewhere hash_of_swapsOrPrunes change, ih]

/-! What the digest shows. -/

/-- No subtree is known by its digest alone. -/
inductive Whole : TapTree → Prop
  | leaf (version : UInt8) (script : Bytes) : Whole (.leaf version script)
  | branch {left right : TapTree} (wholeLeft : Whole left) (wholeRight : Whole right) :
    Whole (.branch left right)

def leafMessage (version : UInt8) (script : Bytes) : Bytes := version :: SizedBytes.encode script

/-- All strings that are digested for the digest of the tree. -/
def digested : TapTree → List Bytes
  | leaf version script => HashTag.taprootLeaf.digested (leafMessage version script)
  | pruned _ => []
  | branch left right =>
    left.digested ++ right.digested ++
      HashTag.taprootBranch.digested (branchMessage left.hash right.hash)

theorem hash_leaf (version : UInt8) (script : Bytes) :
    (leaf version script).hash = HashTag.taprootLeaf.hash (leafMessage version script) := rfl

theorem hash_branch (left right : TapTree) :
    (branch left right).hash =
      HashTag.taprootBranch.hash (branchMessage left.hash right.hash) := branchHash_eq _ _

theorem leafMessage_injective {version version' : UInt8} {script script' : Bytes}
    (same : leafMessage version script = leafMessage version' script') :
    version = version' ∧ script = script' := by
  obtain ⟨rfl, encoded⟩ := List.cons.inj same
  rw [SizedBytes.encode, SizedBytes.encode] at encoded
  exact ⟨rfl, (CompactSize.decode_reads.prefixFree trivial trivial encoded).2⟩

section Digested

variable {strings : List Bytes} {left right : TapTree}

theorem digested_left_subset (within : (branch left right).digested ⊆ strings) :
    left.digested ⊆ strings :=
  fun _ member => within (List.mem_append_left _ (List.mem_append_left _ member))

theorem digested_right_subset (within : (branch left right).digested ⊆ strings) :
    right.digested ⊆ strings :=
  fun _ member => within (List.mem_append_left _ (List.mem_append_right _ member))

theorem digested_branch_subset (within : (branch left right).digested ⊆ strings) :
    HashTag.taprootBranch.digested (branchMessage left.hash right.hash) ⊆ strings :=
  fun _ member => within (List.mem_append_right _ member)

theorem digested_exchange_subset (left right : TapTree) :
    (branch left right).digested ++ (branch right left).digested ⊆
      (branch left right).digested := by
  intro x member
  rw [digested, digested, branchMessage_comm right.hash] at member
  rw [digested]
  simp only [List.mem_append] at member ⊢
  tauto

end Digested

theorem edits_of_hash_eq {strings : List Bytes} (free : ¬Sha256.Collides strings) {a b : TapTree}
    (wholeA : a.Whole) (wholeB : b.Whole) (inA : a.digested ⊆ strings)
    (inB : b.digested ⊆ strings) (same : a.hash = b.hash) : Edits Swaps a b := by
  induction wholeA generalizing b with
  | leaf version script =>
    cases wholeB with
    | leaf version' script' =>
      obtain ⟨-, messages⟩ := HashTag.eq_of_hash_eq free inA inB same
      obtain ⟨rfl, rfl⟩ := leafMessage_injective messages
      exact .refl
    | branch =>
      rw [hash_leaf, hash_branch] at same
      obtain ⟨tags, -⟩ := HashTag.eq_of_hash_eq free inA (digested_branch_subset inB) same
      cases tags
  | @branch left right _ _ ihLeft ihRight =>
    have inLeft := digested_left_subset inA
    have inRight := digested_right_subset inA
    cases wholeB with
    | leaf version' script' =>
      rw [hash_leaf, hash_branch] at same
      obtain ⟨tags, -⟩ := HashTag.eq_of_hash_eq free (digested_branch_subset inA) inB same
      cases tags
    | @branch left' right' wholeLeft' wholeRight' =>
      have inLeft' := digested_left_subset inB
      have inRight' := digested_right_subset inB
      rw [hash_branch, hash_branch] at same
      obtain ⟨-, messages⟩ := HashTag.eq_of_hash_eq free (digested_branch_subset inA)
        (digested_branch_subset inB) same
      rcases eq_or_swapped_of_branchMessage_eq messages with ⟨lefts, rights⟩ | ⟨lefts, rights⟩
      · exact (ihLeft wholeLeft' inLeft inLeft' lefts).branch
          (ihRight wholeRight' inRight inRight' rights)
      · have crossed := (ihLeft wholeRight' inLeft inRight' lefts).branch
          (ihRight wholeLeft' inRight inLeft' rights)
        exact crossed.tail (.here (.children right' left'))

/-- The digest of a tree is kept by any exchange of children and any pruning of subtrees. Whole
trees that have one digest are equal up to the order of children, unless two of the strings that
are digested for them collide. -/
theorem hash_commits :
    (∀ tree edited : TapTree, Edits SwapsOrPrunes tree edited → edited.hash = tree.hash) ∧
    ∀ a b : TapTree, a.Whole → b.Whole → ¬Sha256.Collides (a.digested ++ b.digested) →
      a.hash = b.hash → Edits Swaps a b := by
  refine ⟨fun _ _ edits => hash_of_edits edits, ?_⟩
  intro a b wholeA wholeB free same
  exact edits_of_hash_eq free wholeA wholeB (List.subset_append_left _ _)
    (List.subset_append_right _ _) same

def pair : TapTree := branch (leaf tapscriptVersion [0x51]) (leaf tapscriptVersion [])

def pairExchanged : TapTree := branch (leaf tapscriptVersion []) (leaf tapscriptVersion [0x51])

theorem not_collides_pair : ¬Sha256.Collides (pair.digested ++ pairExchanged.digested) := by
  have distinct : (pair.digested.dedup.map Sha256.hash).Nodup := by decide +kernel
  exact mt (Sha256.Collides.mono (digested_exchange_subset _ _))
    (Sha256.not_collides_of_nodup distinct)

theorem hash_commits_pair :
    pairExchanged.hash = pair.hash ∧
      (branch (leaf tapscriptVersion []) (pruned (leafHash tapscriptVersion [0x51]))).hash =
        pair.hash ∧
      Edits Swaps pair pairExchanged := by
  have swap : Somewhere SwapsOrPrunes pair pairExchanged := .here (.inl (.children _ _))
  have prune : Somewhere SwapsOrPrunes pairExchanged
      (branch (leaf tapscriptVersion []) (pruned (leafHash tapscriptVersion [0x51]))) :=
    .right _ (.here (.inr (.subtree (leaf tapscriptVersion [0x51]))))
  have same := hash_commits.1 pair pairExchanged (.single swap)
  refine ⟨same, hash_commits.1 pair _ (.tail (.single swap) prune), ?_⟩
  exact hash_commits.2 pair pairExchanged (.branch (.leaf _ _) (.leaf _ _))
    (.branch (.leaf _ _) (.leaf _ _)) not_collides_pair same.symm

end TapTree

end BitcoinSigning
