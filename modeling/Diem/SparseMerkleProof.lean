import Diem.StateRoot

namespace Diem

open Fallible List

/-!
# Proofs of account states

A proof holds the leaf at the end of the path of a key, if there is one, and the
siblings on the way (`types/src/proof/definition.rs`).  An accepted proof holds the
siblings of the binary tree of the state, so it tells the value of the key.
-/

open CompressedTrie

/-- A leaf of the state tree in a proof. -/
structure SparseMerkleLeafNode where
  key : AccountKey
  valueHash : HashValue
  deriving DecidableEq

namespace SparseMerkleLeafNode

def hash {Value : Type} (hasher : StateHasher Value)
    (leaf : SparseMerkleLeafNode) : HashValue :=
  hasher.leaf leaf.key leaf.valueHash

end SparseMerkleLeafNode

/-- A proof for one key; siblings are ordered from the bottom to the root. -/
structure SparseMerkleProof where
  leaf : Option SparseMerkleLeafNode
  siblings : List HashValue
  deriving DecidableEq

namespace SparseMerkleProof

variable {Value : Type} (hasher : StateHasher Value)
  (proof : SparseMerkleProof)

/-- The leaf of the proof fits the key and the value. -/
def checkLeaf (elementKey : AccountKey) (elementValue : Option Value) : Fallible Unit :=
  match elementValue, proof.leaf with
  | some value, some leaf => do
      ensure (elementKey = leaf.key) "Keys do not match."
      ensure (hasher.hashValue value = leaf.valueHash) "Value hashes do not match."
  | some _, none => .error (.error "Expected inclusion proof. Found non-inclusion proof.")
  | none, some leaf => do
      ensure (elementKey ≠ leaf.key) "Expected non-inclusion proof, but key exists in proof."
      ensure (elementKey.commonPrefixBitsLen leaf.key ≥ proof.siblings.length)
        ("Key would not have ended up in the subtree where the provided " ++
          "key in proof is the only existing key, if it existed. So this " ++
          "is not a valid non-inclusion proof.")
  | none, none => .ok ()

/-- The hash at the end of the path. -/
def currentHash : HashValue :=
  match proof.leaf with
  | some leaf => leaf.hash hasher
  | none => hasher.placeholder

/-- The root hash that the siblings lead to. -/
def actualRootHash (elementKey : AccountKey) : HashValue :=
  (proof.siblings.zip
      (elementKey.bits.reverse.drop (4 * rootNibbleHeight - proof.siblings.length))).foldl
    (fun hash pair => hasher.parent pair.2 pair.1 hash)
    (proof.currentHash hasher)

/-- The key has the value, or is absent, in the state with the root hash. -/
def verify (expectedRootHash : HashValue) (elementKey : AccountKey) (elementValue : Option Value) :
    Fallible Unit := do
  ensure (proof.siblings.length ≤ 4 * rootNibbleHeight)
    (s!"Sparse Merkle Tree proof has more than {4 * rootNibbleHeight} " ++
      s!"({proof.siblings.length}) siblings.")
  proof.checkLeaf hasher elementKey elementValue
  ensure (proof.actualRootHash hasher elementKey = expectedRootHash) "Root hashes do not match."

end SparseMerkleProof

namespace SparseHasher

variable {Key Value Hash : Type} (hasher : SparseHasher Key Value Hash)

/-- Bits below the last sibling do not matter. -/
theorem climb_take (bits : List Bool) (siblings : List Hash) (hash : Hash) :
    hasher.climb (bits.take siblings.length) siblings hash = hasher.climb bits siblings hash := by
  induction siblings generalizing bits with
  | nil => cases bits <;> rfl
  | cons sibling siblings ih =>
    cases bits with
    | nil => rfl
    | cons bit bits => rw [length_cons, take_succ_cons, climb, climb, ih]

/-- Climbing from the bottom to the top, sibling by sibling. -/
theorem foldl_parent_eq_climb {bits : List Bool} {siblings : List Hash}
    (lengths : siblings.length = bits.length) (hash : Hash) :
    (siblings.reverse.zip bits.reverse).foldl
        (fun hash pair => hasher.parent pair.2 pair.1 hash) hash =
      hasher.climb bits siblings hash := by
  induction bits generalizing siblings with
  | nil =>
    obtain rfl := length_eq_zero_iff.mp lengths
    rfl
  | cons bit bits ih =>
    cases siblings with
    | nil => simp at lengths
    | cons sibling siblings =>
      have shorter : siblings.length = bits.length := by simpa using lengths
      rw [reverse_cons, reverse_cons, zip_append (by simpa using shorter), foldl_append, ih shorter]
      rfl

end SparseHasher

namespace SparseMerkleProof

variable {Value : Type} {hasher : StateHasher Value}
  {items : AccountKey → Option Value} {proof : SparseMerkleProof}

theorem actualRootHash_eq (short : proof.siblings.length ≤ 4 * rootNibbleHeight)
    (key : AccountKey) :
    proof.actualRootHash hasher key =
      hasher.climb key.bits proof.siblings.reverse (proof.currentHash hasher) := by
  have length : key.bits.length = 4 * rootNibbleHeight := AccountKey.uniform_bits.length key
  have dropped : key.bits.reverse.drop (4 * rootNibbleHeight - proof.siblings.length) =
        (key.bits.take proof.siblings.length).reverse := by
    rw [drop_reverse, length]
    congr 2
    omega
  have sizes : proof.siblings.reverse.length = (key.bits.take proof.siblings.length).length := by
    rw [length_reverse, length_take, length]
    omega
  rw [actualRootHash, dropped]
  have folded := hasher.foldl_parent_eq_climb sizes (proof.currentHash hasher)
  rw [reverse_reverse] at folded
  rw [folded, ← length_reverse, SparseHasher.climb_take]

theorem currentHash_terminal (proof : SparseMerkleProof) :
    hasher.Terminal (proof.currentHash hasher) := by
  rw [currentHash]
  cases proof.leaf with
  | none => exact .inl rfl
  | some leaf => exact .inr ⟨leaf.key, leaf.valueHash, rfl⟩

variable {key : AccountKey} {value : Option Value}

theorem verify_eq_ok_iff {root : HashValue} :
    proof.verify hasher root key value = .ok () ↔
      proof.siblings.length ≤ 4 * rootNibbleHeight ∧ proof.checkLeaf hasher key value = .ok () ∧
        proof.actualRootHash hasher key = root := by
  simp only [verify, check_eq_ok_iff, ensure_eq_ok_iff]

section

variable (free : hasher.CollisionFree)
  (accepted : proof.verify hasher (stateRoot hasher items) key value = .ok ())
include free accepted

/-- The siblings of an accepted proof are those of the state. -/
theorem verify_descent :
    (stateDescent hasher items key).1 = proof.siblings.reverse ∧
      (stateDescent hasher items key).2.hash hasher = proof.currentHash hasher := by
  obtain ⟨short, -, root⟩ := verify_eq_ok_iff.mp accepted
  rw [actualRootHash_eq short] at root
  refine descend_eq_of_climb free (currentHash_terminal proof) ?_ root
  rw [length_reverse, AccountKey.uniform_bits.length]
  exact short

/-- An accepted proof tells the value of the key. -/
theorem verify_sound : items key = value := by
  obtain ⟨-, final⟩ := verify_descent free accepted
  obtain ⟨-, leafFits, -⟩ := verify_eq_ok_iff.mp accepted
  cases found : proof.leaf with
  | none =>
    rw [currentHash, found] at final
    rcases stateDescent_cases hasher items key with
      ⟨reached, absent⟩ | ⟨_, reached, _⟩ | ⟨_, _, reached, _⟩ <;>
      rw [reached] at final
    · cases value with
      | none => exact absent
      | some value => simp [checkLeaf, found] at leafFits
    all_goals exact (free.leaf_ne_placeholder final).elim
  | some leaf =>
    rw [currentHash, found] at final
    rcases stateDescent_cases hasher items key with
      ⟨reached, _⟩ | ⟨stored, reached, present⟩ |
      ⟨other, stored, reached, different, -, absent, -⟩ <;>
      rw [reached] at final
    · exact (free.leaf_ne_placeholder final.symm).elim
    · obtain ⟨sameKey, sameHash⟩ := free.leaf_injective final
      cases value with
      | none => simp [checkLeaf, found, check_eq_ok_iff, sameKey] at leafFits
      | some value =>
        simp only [checkLeaf, found, check_eq_ok_iff, ensure_eq_ok_iff] at leafFits
        rw [present, free.hashValue_injective (sameHash.trans leafFits.2.symm)]
    · cases value with
      | none => exact absent
      | some value =>
        simp only [checkLeaf, found, check_eq_ok_iff, ensure_eq_ok_iff] at leafFits
        exact (different ((free.leaf_injective final).1.trans leafFits.1.symm)).elim

end

noncomputable def ofState
    (hasher : StateHasher Value)
    (items : AccountKey → Option Value)
    (key : AccountKey) : SparseMerkleProof where
  leaf :=
    match (stateDescent hasher items key).2 with
    | .leaf _ leafKey value => some ⟨leafKey, hasher.hashValue value⟩
    | _ => none
  siblings := (stateDescent hasher items key).1.reverse

theorem ofState_currentHash (key : AccountKey) :
    (ofState hasher items key).currentHash hasher =
      (stateDescent hasher items key).2.hash hasher := by
  rcases stateDescent_cases hasher items key with
    ⟨reached, -⟩ | ⟨stored, reached, -⟩ | ⟨other, stored, reached, -⟩ <;>
    simp only [ofState, currentHash, reached] <;>
    rfl

/-- The proof of the state is accepted. -/
theorem ofState_verify (hasher : StateHasher Value)
    (items : AccountKey → Option Value) (key : AccountKey) :
    (ofState hasher items key).verify hasher (stateRoot hasher items) key (items key) = .ok () := by
  have short : (ofState hasher items key).siblings.length ≤ 4 * rootNibbleHeight := by
    rw [ofState, length_reverse]
    exact stateDescent_length_le hasher items key
  refine verify_eq_ok_iff.mpr ⟨short, ?_, ?_⟩
  · rcases stateDescent_cases hasher items key with
      ⟨reached, absent⟩ | ⟨stored, reached, present⟩ |
      ⟨other, stored, reached, different, -, absent, starts⟩
    · simp [checkLeaf, ofState, reached, absent]
    · simp [checkLeaf, ofState, reached, present, check_eq_ok_iff]
    · have bound := stateDescent_length_le hasher items key
      have common : (stateDescent hasher items key).1.length ≤
            key.commonPrefixBitsLen other := by
        rw [AccountKey.le_commonPrefixBitsLen bound, prefix_iff_eq_take.mp starts, length_take,
          AccountKey.uniform_bits.length, min_eq_left bound]
      simpa [checkLeaf, ofState, reached, absent, check_eq_ok_iff, Ne.symm different] using common
  · rw [actualRootHash_eq short, ofState_currentHash, ofState, reverse_reverse]
    exact climb_descend _ _

end SparseMerkleProof

end Diem
