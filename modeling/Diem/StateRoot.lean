import Diem.NibblePath
import Diem.SparseMerkle
import Diem.SymbolicCrypto

namespace Diem

open AccountKey HashValue

/-!
# The root hash of a state

A state is a map from keys to values.  Its root hash is the hash of the compressed
binary tree of the map, which the map determines.
-/

open CompressedTrie

/-- The binary tree behind the state tree. -/
abbrev BinaryTrie (Value : Type) :=
  CompressedTrie Bool Unit AccountKey Value

variable {Value : Type} (items : AccountKey → Option Value)

/-- The binary tree of a state. -/
noncomputable def canonicalTrie : BinaryTrie Value :=
  (exists_represents uniform_bits items () []).choose

/-- The hashes of a state tree. -/
abbrev StateHasher (Value : Type) :=
  SparseHasher AccountKey Value HashValue

variable (hasher : StateHasher Value)

/-- The root hash of a state. -/
noncomputable def stateRoot (items : AccountKey → Option Value) : HashValue :=
  (canonicalTrie items).hash hasher

theorem canonicalTrie_represents : Represents bits items [] (canonicalTrie items) :=
  (exists_represents uniform_bits items () []).choose_spec

variable {items : AccountKey → Option Value} {trie : BinaryTrie Value}

theorem canonicalTrie_eq (represents : Represents bits items [] trie) :
    canonicalTrie items = trie :=
  (canonicalTrie_represents items).unique represents

theorem stateRoot_eq (represents : Represents bits items [] trie) :
    stateRoot hasher items = trie.hash hasher := by
  rw [stateRoot, canonicalTrie_eq represents]

/-- Hashes of states as terms. -/
def symbolicHasher : StateHasher Nat where
  placeholder := .atom 0
  hashValue value := .atom value
  leaf key hash := .pair (.atom 0) (.pair (HashTerm.term (key.nibbles.map Fin.val)) hash)
  internal left right := .pair (.atom 1) (.pair left right)

theorem symbolicHasher_collisionFree : symbolicHasher.CollisionFree where
  hashValue_injective _ _ := atom.inj
  leaf_injective same := by
    obtain ⟨-, rest⟩ := pair.inj same
    obtain ⟨sameKey, sameHash⟩ := pair.inj rest
    refine ⟨nibbles_injective ?_, sameHash⟩
    exact List.map_injective_iff.mpr Fin.val_injective (HashTerm.injective sameKey)
  internal_injective same := by
    obtain ⟨-, rest⟩ := pair.inj same
    exact pair.inj rest
  leaf_ne_internal same := by
    obtain ⟨tags, -⟩ := pair.inj same
    cases tags
  leaf_ne_placeholder same := by
    cases same
  placeholder_ne_internal same := by
    cases same

/-- The siblings and the last subtree on the way to a key. -/
noncomputable def stateDescent
    (items : AccountKey → Option Value)
    (key : AccountKey) : List HashValue × BinaryTrie Value :=
  (canonicalTrie items).descend hasher key.bits

/-- The way to a key ends at nothing, at its leaf or at another leaf. -/
theorem stateDescent_cases (items : AccountKey → Option Value) (key : AccountKey) :
    ((stateDescent hasher items key).2 = .empty ∧ items key = none) ∨
    (∃ value, (stateDescent hasher items key).2 = .leaf () key value ∧ items key = some value) ∨
    (∃ other value, (stateDescent hasher items key).2 = .leaf () other value ∧
      other ≠ key ∧ items other = some value ∧ items key = none ∧
      key.bits.take (stateDescent hasher items key).1.length <+: other.bits) :=
  (canonicalTrie_represents items).descend_cases uniform_bits key

theorem stateDescent_length_le (items : AccountKey → Option Value) (key : AccountKey) :
    (stateDescent hasher items key).1.length ≤ 4 * rootNibbleHeight := by
  rw [← uniform_bits.length key]
  exact descend_length_le _ _

end Diem
