import Diem.MerkleForest

namespace Diem.MerkleForest

open List

/-!
# Trees behind hashes

With a collision-free hasher, a hash determines the tree it was computed from.  A
list of hashes covers a list of leaves when the hashes are the roots of trees whose
leaves, concatenated, are that list.  Merging two adjacent roots and splitting a
root again keep the leaves covered.
-/

variable {Hash : Type}

/-- A binary tree with hashes at its leaves. -/
inductive HashTree (Hash : Type) where
  | leaf (hash : Hash)
  | node (left right : HashTree Hash)

namespace HashTree

/-- The root hash of a tree. -/
def hash (hasher : Hasher Hash) : HashTree Hash → Hash
  | .leaf value => value
  | .node left right => hasher.internal (left.hash hasher) (right.hash hasher)

def leaves : HashTree Hash → List Hash
  | .leaf value => [value]
  | .node left right => left.leaves ++ right.leaves

end HashTree

/--
The hasher is injective, and leaf hashes, internal hashes and the placeholder are
told apart.
-/
structure CollisionFree (hasher : Hasher Hash) (isLeaf : Hash → Prop) : Prop where
  injective :
    ∀ {left right left' right'}, hasher.internal left right = hasher.internal left' right' →
      left = left' ∧ right = right'
  leaf_ne_internal : ∀ {value left right}, isLeaf value → value ≠ hasher.internal left right
  leaf_ne_placeholder : ∀ {value}, isLeaf value → value ≠ hasher.placeholder
  placeholder_ne_internal : ∀ {left right}, hasher.placeholder ≠ hasher.internal left right

/-- The hashes are the roots of trees over the given leaves. -/
def Covers (hasher : Hasher Hash) (roots leaves : List Hash) : Prop :=
  ∃ trees : List (HashTree Hash), roots = trees.map (HashTree.hash hasher) ∧
    leaves = trees.flatMap HashTree.leaves

section

variable {hasher : Hasher Hash} {isLeaf : Hash → Prop}

/-- Equal root hashes come from equal trees. -/
theorem HashTree.hash_injective (free : CollisionFree hasher isLeaf) {first second : HashTree Hash}
    (firstLeaves : ∀ value ∈ first.leaves, isLeaf value)
    (secondLeaves : ∀ value ∈ second.leaves, isLeaf value)
    (sameHash : first.hash hasher = second.hash hasher) : first = second := by
  induction first generalizing second with
  | leaf value =>
    cases second with
    | leaf value' => exact congrArg HashTree.leaf sameHash
    | node left right =>
      exact (free.leaf_ne_internal (firstLeaves value (by simp [leaves])) sameHash).elim
  | node left right leftHypothesis rightHypothesis =>
    cases second with
    | leaf value =>
      exact (free.leaf_ne_internal (secondLeaves value (by simp [leaves])) sameHash.symm).elim
    | node left' right' =>
      obtain ⟨sameLeft, sameRight⟩ := free.injective sameHash
      rw [leaves, forall_mem_append] at firstLeaves secondLeaves
      rw [leftHypothesis firstLeaves.1 secondLeaves.1 sameLeft,
        rightHypothesis firstLeaves.2 secondLeaves.2 sameRight]

theorem covers_nil : Covers hasher [] [] := ⟨[], rfl, rfl⟩

variable {roots covered : List Hash}

theorem Covers.concat (covers : Covers hasher roots covered) (value : Hash) :
    Covers hasher (roots ++ [value]) (covered ++ [value]) := by
  obtain ⟨trees, rfl, rfl⟩ := covers
  exact ⟨trees ++ [.leaf value], by simp [HashTree.hash], by simp [HashTree.leaves]⟩

/-- Merging the last two roots keeps the leaves covered. -/
theorem Covers.merge {left right : Hash} (covers : Covers hasher (roots ++ [left, right]) covered) :
    Covers hasher (roots ++ [hasher.internal left right]) covered := by
  obtain ⟨trees, rootsShape, rfl⟩ := covers
  obtain ⟨front, back, rfl, frontShape, backShape⟩ := map_eq_append_iff.mp rootsShape.symm
  obtain ⟨leftTree, rest, rfl, rfl, restShape⟩ := map_eq_cons_iff.mp backShape
  obtain ⟨rightTree, last, rfl, rfl, lastShape⟩ := map_eq_cons_iff.mp restShape
  obtain rfl := map_eq_nil_iff.mp lastShape
  refine ⟨front ++ [.node leftTree rightTree], ?_, ?_⟩
  · simp [HashTree.hash, frontShape]
  · simp [HashTree.leaves]

section

variable (free : CollisionFree hasher isLeaf)
include free

/-- An internal root can be split into its two children. -/
theorem Covers.split {before after : List Hash} {left right : Hash}
    (allLeaves : ∀ value ∈ covered, isLeaf value)
    (covers : Covers hasher (before ++ hasher.internal left right :: after) covered) :
    Covers hasher (before ++ left :: right :: after) covered := by
  obtain ⟨trees, rootsShape, rfl⟩ := covers
  obtain ⟨front, back, rfl, frontShape, backShape⟩ := map_eq_append_iff.mp rootsShape.symm
  obtain ⟨tree, rest, rfl, treeShape, restShape⟩ := map_eq_cons_iff.mp backShape
  cases tree with
  | leaf value =>
    have isLeafValue : isLeaf value := allLeaves value (by simp [HashTree.leaves])
    exact (free.leaf_ne_internal isLeafValue treeShape).elim
  | node leftTree rightTree =>
    obtain ⟨rfl, rfl⟩ := free.injective treeShape
    refine ⟨front ++ leftTree :: rightTree :: rest, ?_, ?_⟩
    · simp [frontShape, restShape]
    · simp [HashTree.leaves]

theorem leaves_of_sameHashes {first second : List (HashTree Hash)}
    (firstLeaves : ∀ value ∈ first.flatMap HashTree.leaves, isLeaf value)
    (secondLeaves : ∀ value ∈ second.flatMap HashTree.leaves, isLeaf value)
    (sameHashes : first.map (HashTree.hash hasher) = second.map (HashTree.hash hasher)) :
    first = second := by
  induction first generalizing second with
  | nil => exact (map_eq_nil_iff.mp sameHashes.symm).symm
  | cons tree rest ih =>
    obtain ⟨tree', rest', rfl, sameTree, sameRest⟩ := map_eq_cons_iff.mp sameHashes.symm
    rw [flatMap_cons, forall_mem_append] at firstLeaves secondLeaves
    rw [HashTree.hash_injective free firstLeaves.1 secondLeaves.1 sameTree.symm,
      ih firstLeaves.2 secondLeaves.2 sameRest.symm]

/-- Roots that start a cover of a list cover a prefix of it. -/
theorem Covers.starts_total {rest total : List Hash}
    (coveredLeaves : ∀ value ∈ covered, isLeaf value) (totalLeaves : ∀ value ∈ total, isLeaf value)
    (covers : Covers hasher roots covered) (coversTotal : Covers hasher (roots ++ rest) total) :
    covered <+: total := by
  obtain ⟨trees, rfl, rfl⟩ := covers
  obtain ⟨totalTrees, rootsShape, rfl⟩ := coversTotal
  obtain ⟨front, back, rfl, frontShape, -⟩ := map_eq_append_iff.mp rootsShape.symm
  rw [flatMap_append, forall_mem_append] at totalLeaves
  rw [leaves_of_sameHashes free coveredLeaves totalLeaves.1 frontShape.symm, flatMap_append]
  exact prefix_append _ _

end

end

end Diem.MerkleForest
