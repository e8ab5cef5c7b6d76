import BitcoinSigning.Hash.Digest
import Mathlib.Data.List.Dedup
/-!
Tagged digests keep the purposes of a digest apart. What is digested for a tag and a message is
the text of the tag, and its digest twice before the message. So tagged digests are equal only
for one tag and one message, or two of these strings collide.
-/

namespace BitcoinSigning

namespace Sha256

/-- Two different strings among these have one digest. -/
def Collides (strings : List Bytes) : Prop :=
  ∃ x ∈ strings, ∃ y ∈ strings, x ≠ y ∧ hash x = hash y

variable {strings : List Bytes}

theorem Collides.mono {others : List Bytes} (within : strings ⊆ others)
    (collides : Collides strings) : Collides others := by
  obtain ⟨x, inX, y, inY, different⟩ := collides
  exact ⟨x, within inX, y, within inY, different⟩

theorem eq_of_hash_eq (free : ¬Collides strings) {x y : Bytes} (inX : x ∈ strings)
    (inY : y ∈ strings) (same : hash x = hash y) : x = y := by
  by_contra different
  exact free ⟨x, inX, y, inY, different, same⟩

theorem not_collides_of_nodup (distinct : (strings.dedup.map hash).Nodup) :
    ¬Collides strings := by
  rintro ⟨x, inX, y, inY, different, same⟩
  exact different (List.inj_on_of_nodup_map distinct (List.mem_dedup.mpr inX)
    (List.mem_dedup.mpr inY) same)

end Sha256

namespace HashTag

open Sha256

def textBytes (tag : HashTag) : Bytes := tag.text.toUTF8.toList

def tagged (tag : HashTag) (message : Bytes) : Bytes :=
  (Sha256.hash tag.textBytes).bytes ++ (Sha256.hash tag.textBytes).bytes ++ message

def digested (tag : HashTag) (message : Bytes) : List Bytes :=
  [tag.textBytes, tag.tagged message]

theorem hash_eq (tag : HashTag) (message : Bytes) :
    tag.hash message = Sha256.hash (tag.tagged message) := rfl

theorem textBytes_injective : Function.Injective textBytes := by
  intro a b same
  revert same
  cases a <;> cases b <;> decide +kernel

theorem eq_of_hash_eq {strings : List Bytes} (free : ¬Collides strings) {a b : HashTag}
    {x y : Bytes} (inA : a.digested x ⊆ strings) (inB : b.digested y ⊆ strings)
    (same : a.hash x = b.hash y) : a = b ∧ x = y := by
  obtain ⟨textA, taggedA⟩ := List.cons_subset.mp inA
  obtain ⟨textB, taggedB⟩ := List.cons_subset.mp inB
  rw [hash_eq, hash_eq] at same
  have strings := Sha256.eq_of_hash_eq free (List.cons_subset.mp taggedA).1
    (List.cons_subset.mp taggedB).1 same
  rw [tagged, tagged, List.append_assoc, List.append_assoc] at strings
  have widths (tag : HashTag) : (Sha256.hash tag.textBytes).bytes.length = 32 :=
    Bytes32.length_eq _
  obtain ⟨digests, rest⟩ := List.append_inj strings ((widths a).trans (widths b).symm)
  obtain ⟨-, messages⟩ := List.append_inj rest ((widths a).trans (widths b).symm)
  have texts := Sha256.eq_of_hash_eq free textA textB (Bytes32.ext digests)
  exact ⟨textBytes_injective texts, messages⟩

end HashTag

end BitcoinSigning
