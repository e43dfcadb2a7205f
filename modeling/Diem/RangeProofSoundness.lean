import Diem.HashTree
import Diem.InMemoryAccumulatorSpec
import Diem.PositionSpec
import Diem.TransactionProofs

namespace Diem.AccumulatorRangeProof

open Fallible (noPanic_ensure noPanic_error noPanic_ok)
open MerkleForest Fallible
open Position (ofNode InRange)
open List Nat Position

/-!
# Range proofs pin leaves to their place in the tree

The loop of a range proof climbs from the leaves to the root.  If the hash at the top is
that of a padded tree, then splitting it again shows what every hash on the way was: the
hashes of a level are a row of neighbouring nodes, and the left siblings are the maximal
perfect subtrees left of the range.  The place of the row is given by the bits of the
first index that the loop looked at, as many as there are levels.
-/

variable {Hash : Type} {hasher : Hasher Hash} {isLeaf : Hash → Prop}
  {leaf : Nat → Hash} {count level index : Nat}

/-- The hashes are those of neighbouring nodes of a level, from the given index on. -/
def Row (hasher : Hasher Hash) (leaf : Nat → Hash) (count level : Nat) :
    Nat → List Hash → Prop
  | _, [] => True
  | index, hash :: rest =>
    hash = paddedHash hasher leaf count level index ∧ Row hasher leaf count level (index + 1) rest

theorem row_append {front back : List Hash} :
    Row hasher leaf count level index (front ++ back) ↔ Row hasher leaf count level index front ∧
      Row hasher leaf count level (index + front.length) back := by
  induction front generalizing index with
  | nil => simp [Row]
  | cons first rest ih =>
    have shifted : index + 1 + rest.length = index + (rest.length + 1) := by omega
    simp only [cons_append, Row, ih, length_cons, shifted, and_assoc]

theorem row_get {hashes : List Hash} (row : Row hasher leaf count level index hashes) (offset : Nat)
    (inside : offset < hashes.length) :
    hashes.get ⟨offset, inside⟩ = paddedHash hasher leaf count level (index + offset) := by
  induction hashes generalizing index offset with
  | nil => cases inside
  | cons first rest ih =>
    cases offset with
    | zero => exact row.1
    | succ offset =>
      have shifted : index + 1 + offset = index + (offset + 1) := by omega
      rw [← shifted]
      exact ih row.2 offset (lt_of_succ_lt_succ inside)

section

variable (free : CollisionFree hasher isLeaf)
include free

theorem internal_ne_padded_zero (areLeaves : ∀ index < count, isLeaf (leaf index))
    {left right : Hash} : hasher.internal left right ≠ paddedHash hasher leaf count 0 index := by
  rw [paddedHash]
  split
  · rename_i present
    exact (free.leaf_ne_internal (areLeaves index present)).symm
  · exact free.placeholder_ne_internal.symm

/-- A hash of two nodes can be split in the padded tree. -/
theorem internal_eq_padded_succ {left right : Hash}
    (same : hasher.internal left right = paddedHash hasher leaf count (level + 1) index) :
    left = paddedHash hasher leaf count level (2 * index) ∧
      right = paddedHash hasher leaf count level (2 * index + 1) := by
  rw [paddedHash] at same
  split at same
  · exact free.injective same
  · exact (free.placeholder_ne_internal same.symm).elim

theorem leaf_ne_padded_succ {value : Hash} (isLeafValue : isLeaf value) :
    value ≠ paddedHash hasher leaf count (level + 1) index := by
  rw [paddedHash]
  split
  · exact free.leaf_ne_internal isLeafValue
  · exact free.leaf_ne_placeholder isLeafValue

end

/-!
## One level
-/

/-- The children of a row of parents are a row, two for each parent. -/
structure Splits (hasher : Hasher Hash) (parents children : List Hash) : Prop where
  length : children.length = 2 * parents.length
  areInternal : ∀ parent ∈ parents, ∃ left right, parent = hasher.internal left right
  row : ∀ (isLeaf : Hash → Prop), CollisionFree hasher isLeaf →
    ∀ leaf count level index, Row hasher leaf count (level + 1) index parents →
      Row hasher leaf count level (2 * index) children

theorem splits_nil : Splits hasher [] [] := ⟨rfl, by simp, fun _ _ _ _ _ _ _ => trivial⟩

theorem splits_pair (left right : Hash) :
    Splits hasher [hasher.internal left right] [left, right] := by
  refine ⟨rfl, ?_, ?_⟩
  · intro parent member
    exact ⟨left, right, mem_singleton.mp member⟩
  · intro isLeaf free leaf count level index row
    obtain ⟨isLeft, isRight⟩ := internal_eq_padded_succ free row.1
    exact ⟨isLeft, isRight, trivial⟩

theorem Splits.append {first second firstChildren secondChildren : List Hash}
    (splits : Splits hasher first firstChildren) (splits' : Splits hasher second secondChildren) :
    Splits hasher (first ++ second) (firstChildren ++ secondChildren) := by
  refine ⟨?_, ?_, ?_⟩
  · rw [length_append, length_append, splits.length, splits'.length]
    omega
  · intro parent member
    rcases mem_append.mp member with inFirst | inSecond
    · exact splits.areInternal parent inFirst
    · exact splits'.areInternal parent inSecond
  · intro isLeaf free leaf count level index row
    obtain ⟨firstRow, secondRow⟩ := row_append.mp row
    refine row_append.mpr ⟨splits.row isLeaf free leaf count level index firstRow, ?_⟩
    have shifted : 2 * index + firstChildren.length = 2 * (index + first.length) := by
      rw [splits.length]
      omega
    rw [shifted]
    exact splits'.row isLeaf free leaf count level _ secondRow

theorem pairUp_splits {hashes parents : List Hash} {remainder : Option Hash}
    (paired : pairUp hasher hashes = (parents, remainder)) :
    ∃ children, hashes = children ++ remainder.toList ∧ Splits hasher parents children := by
  fun_induction pairUp hasher hashes generalizing parents with
  | case1 =>
    cases paired
    exact ⟨[], rfl, splits_nil⟩
  | case2 value =>
    cases paired
    exact ⟨[], rfl, splits_nil⟩
  | case3 left right rest restParents restRemainder pairedRest ih =>
      cases paired
      obtain ⟨children, shape, splits⟩ := ih pairedRest
      refine ⟨left :: right :: children, ?_, ?_⟩
      · rw [shape]
        rfl
      · exact (splits_pair left right).append splits

variable {firstPos : Position} {current left right parents left' right' : List Hash}

/-- The bit of the first index that a level looks at. -/
def levelBit (position : Position) : Nat :=
  if position.isRightChild then 1 else 0

/-- A level adds at most one sibling on each side and combines the rest in pairs. -/
theorem nextLevel_splits
    (reduced : nextLevel hasher firstPos current left right = .ok (parents, left', right')) :
    ∃ before after, before.length = levelBit firstPos ∧ left = before ++ left' ∧
      right = after ++ right' ∧
      Splits hasher parents (before ++ current ++ after) := by
  obtain ⟨⟨first, children, leftRest⟩, combined, reduced⟩ := bind_eq_ok_iff.mp reduced
  have firstShape : ∃ before used, before.length = levelBit firstPos ∧ left = before ++ leftRest ∧
        current = used ++ children ∧
        Splits hasher first (before ++ used) := by
    unfold combineFirst at combined
    unfold levelBit
    split at combined
    · rename_i isRight
      rw [if_pos isRight]
      split at combined
      · cases combined
      · cases combined
      · cases combined
        exact ⟨[_], [_], rfl, rfl, rfl, splits_pair _ _⟩
    · rename_i isLeft
      rw [if_neg isLeft]
      cases combined
      exact ⟨[], [], rfl, rfl, rfl, splits_nil⟩
  obtain ⟨before, used, bit, leftShape, currentShape, firstSplits⟩ := firstShape
  cases paired : pairUp hasher children with
  | mk middle remainder =>
    simp only [paired] at reduced
    obtain ⟨⟨last, rightRest⟩, combinedLast, reduced⟩ := bind_eq_ok_iff.mp reduced
    cases reduced
    obtain ⟨pairs, childrenShape, middleSplits⟩ := pairUp_splits paired
    have lastShape :
        ∃ after, right = after ++ rightRest ∧ Splits hasher last (remainder.toList ++ after) := by
      unfold combineLast at combinedLast
      split at combinedLast
      · cases combinedLast
        exact ⟨[], rfl, splits_nil⟩
      · cases combinedLast
      · cases combinedLast
        exact ⟨[_], rfl, splits_pair _ _⟩
    obtain ⟨after, rightShape, lastSplits⟩ := lastShape
    refine ⟨before, after, bit, leftShape, rightShape, ?_⟩
    have splits := (firstSplits.append middleSplits).append lastSplits
    have shape :
        before ++ current ++ after = before ++ used ++ pairs ++ (remainder.toList ++ after) := by
      rw [currentShape, childrenShape]
      simp only [append_assoc]
    rw [shape]
    exact splits

/-- A level of a range that is not empty does not panic. -/
theorem nextLevel_noPanic (nonempty : current ≠ []) :
    Fallible.NoPanic (nextLevel hasher firstPos current left right) := by
  refine Fallible.NoPanic.bind ?_ fun _ _ => Fallible.NoPanic.bind ?_ fun _ _ => noPanic_ok _
  · unfold combineFirst
    split
    · split
      · exact noPanic_error _
      · exact absurd rfl nonempty
      · exact noPanic_ok _
    · exact noPanic_ok _
  · unfold combineLast
    split
    · exact noPanic_ok _
    · exact noPanic_error _
    · exact noPanic_ok _

/-!
## All levels
-/

/-- The loop ends: every level uses up hashes or siblings. -/
theorem reduceLoop_noPanic {fuel : Nat} (nonempty : current ≠ [])
    (enough : current.length + left.length + right.length ≤ fuel) :
    Fallible.NoPanic (reduceLoop hasher fuel firstPos current left right) := by
  induction fuel generalizing firstPos current left right with
  | zero =>
    have positive := length_pos_iff.mpr nonempty
    omega
  | succ fuel ih =>
    rw [reduceLoop]
    split
    · refine (nextLevel_noPanic nonempty).bind ?_
      rintro ⟨parents, left', right'⟩ reduced
      obtain ⟨before, after, -, rfl, rfl, splits⟩ := nextLevel_splits reduced
      have lengths := splits.length
      have positive := length_pos_iff.mpr nonempty
      simp only [length_append] at lengths enough
      have parentsNonempty : parents ≠ [] := by
        rintro rfl
        rw [length_nil] at lengths
        omega
      exact ih parentsNonempty (by omega)
    · obtain ⟨first, rest, rfl⟩ := exists_cons_of_ne_nil nonempty
      exact noPanic_ok first

/-- The index that the levels above a position look at, lowest bit first. -/
def pathIndex : Position → Nat → Nat
  | _, 0 => 0
  | position, levels + 1 => 2 * pathIndex position.parent levels + levelBit position

/--
A range that climbs to the root of a padded tree is a row of it, and its left siblings are
the maximal perfect subtrees left of the range.
-/
theorem reduceLoop_sound (free : CollisionFree hasher isLeaf)
    (areLeaves : ∀ index < count, isLeaf (leaf index)) {fuel height : Nat} (nonempty : current ≠ [])
    (climbed : reduceLoop hasher fuel firstPos current left right =
      .ok (paddedHash hasher leaf count height 0)) :
    ∃ levels level, height = level + levels ∧
      Row hasher leaf count level (pathIndex firstPos levels) current ∧
      left.reverse = (frozenNodes level (pathIndex firstPos levels)).map
        (fun node => paddedHash hasher leaf count node.level node.index) ∧
      pathIndex firstPos levels + current.length ≤ 2 ^ levels := by
  induction fuel generalizing firstPos current left right with
  | zero => cases climbed
  | succ fuel ih =>
    rw [reduceLoop] at climbed
    split at climbed
    · obtain ⟨⟨parents, left', right'⟩, reduced, climbedRest⟩ := bind_eq_ok_iff.mp climbed
      obtain ⟨before, after, bit, rfl, -, splits⟩ := nextLevel_splits reduced
      have lengths := splits.length
      have positive : 0 < current.length := length_pos_iff.mpr nonempty
      simp only [length_append, bit] at lengths
      have parentsNonempty : parents ≠ [] := by
        intro empty
        rw [empty, length_nil] at lengths
        omega
      obtain ⟨levels, level, heights, row, siblings, bound⟩ := ih parentsNonempty climbedRest
      obtain ⟨parent, rest, rfl⟩ := exists_cons_of_ne_nil parentsNonempty
      -- The first parent is an internal hash, so the row is above the leaves.
      cases level with
      | zero =>
        obtain ⟨leftHash, rightHash, isInternal⟩ := splits.areInternal parent mem_cons_self
        exact (internal_ne_padded_zero free areLeaves (isInternal.symm.trans row.1)).elim
      | succ level =>
        have childRow := splits.row isLeaf free leaf count level _ row
        rw [append_assoc] at childRow
        obtain ⟨beforeRow, childRow⟩ := row_append.mp childRow
        obtain ⟨currentRow, -⟩ := row_append.mp childRow
        rw [bit] at currentRow
        refine ⟨levels + 1, level, by omega, currentRow, ?_, ?_⟩
        · rw [reverse_append, siblings]
          cases before with
          | nil =>
            have isEven : levelBit firstPos = 0 := bit.symm
            simp only [pathIndex, isEven, add_zero, frozenNodes_even, reverse_nil, append_nil]
          | cons sibling rest =>
            have isOdd : levelBit firstPos = 1 := by
              have atMost : levelBit firstPos ≤ 1 := by
                unfold levelBit
                split <;> omega
              simp only [length_cons] at bit
              omega
            obtain rfl : rest = [] := by
              rw [isOdd] at bit
              simpa using bit
            simp only [pathIndex, isOdd, frozenNodes_odd, map_append, map_cons, map_nil,
              reverse_singleton]
            rw [← beforeRow.1]
        · rw [pathIndex, pow_succ]
          omega
    · rename_i finished
      simp only [not_or, not_lt, not_not] at finished
      obtain ⟨short, rfl, rfl⟩ := finished
      obtain ⟨only, rest, rfl⟩ := exists_cons_of_ne_nil nonempty
      obtain rfl : rest = [] := by
        simpa using short
      cases climbed
      exact ⟨0, height, rfl, ⟨rfl, trivial⟩, by simp [pathIndex], by
        simp [pathIndex]⟩

/-!
## Positions
-/

theorem fromLeafIndex_eq (leafIndex : Nat) :
    fromLeafIndex leafIndex = ofNode ⟨0, leafIndex % 2 ^ 63⟩ := by
  have shifted : Word64.shiftLeft leafIndex 1 = 2 * (leafIndex % 2 ^ 63) := by
    rw [Word64.shiftLeft, shiftLeft_eq, Word64.wrap]
    omega
  have noBits : Word64.sub (Word64.shiftLeft 1 0) 1 = 0 := by decide
  simp [fromLeafIndex, fromLevelAndPos, ofNode, shifted, noBits]

theorem pathIndex_ofNode {level index levels : Nat} (inside : index < 2 ^ (63 - level))
    (low : level + levels ≤ 63) :
    pathIndex (ofNode ⟨level, index⟩) levels = index % 2 ^ levels := by
  induction levels generalizing level index with
  | zero => simp [pathIndex, mod_one]
  | succ levels ih =>
    have shape : 63 - level = 63 - (level + 1) + 1 := by omega
    have halfInside : index / 2 < 2 ^ (63 - (level + 1)) := by
      rw [shape, pow_succ] at inside
      omega
    have parentInRange := inRange_of_index_lt (by omega) halfInside
    rw [pathIndex, parent_ofNode parentInRange, ih halfInside (by omega),
      levelBit, isRightChild_ofNode parentInRange, pow_succ', mod_mul]
    rcases mod_two_eq_zero_or_one index with even | odd
    · simp [even]
    · simp [odd]
      omega

/-- The loop looks at the lowest bits of the first index. -/
theorem pathIndex_fromLeafIndex {levels : Nat} (low : levels ≤ 63) (leafIndex : Nat) :
    pathIndex (fromLeafIndex leafIndex) levels = leafIndex % 2 ^ levels := by
  have inside : leafIndex % 2 ^ 63 < 2 ^ (63 - 0) := Nat.mod_lt _ (Nat.two_pow_pos 63)
  rw [fromLeafIndex_eq, pathIndex_ofNode inside (by omega), mod_mod_of_dvd _ (pow_dvd_pow 2 low)]

/-!
## Acceptance
-/

variable [DecidableEq Hash] {proof : AccumulatorRangeProof Hash} {root : Hash}
  {first : Nat} {leafHashes : List Hash}

theorem verify_eq_ok (accepted : proof.verify hasher root (some first) leafHashes = .ok ()) :
    leafHashes ≠ [] ∧
      reduceLoop hasher (leafHashes.length + proof.leftSiblings.length + proof.rightSiblings.length)
          (fromLeafIndex first) leafHashes proof.leftSiblings
          proof.rightSiblings =
        .ok root := by
  obtain ⟨-, accepted⟩ := check_eq_ok_iff.mp accepted
  obtain ⟨-, accepted⟩ := check_eq_ok_iff.mp accepted
  obtain ⟨nonempty, accepted⟩ := check_eq_ok_iff.mp accepted
  obtain ⟨rootHash, climbed, accepted⟩ := bind_eq_ok_iff.mp accepted
  obtain rfl := ensure_eq_ok_iff.mp accepted
  exact ⟨ensure_eq_ok_iff.mp nonempty, climbed⟩

/-- Verification of any proof ends, and returns or reports an error. -/
theorem verify_neverPanics (firstLeafIndex : Option Nat) :
    Fallible.NoPanic (proof.verify hasher root firstLeafIndex leafHashes) := by
  cases firstLeafIndex with
  | none => exact (noPanic_ensure _ _).bind fun _ _ => noPanic_ensure _ _
  | some first =>
    refine (noPanic_ensure _ _).bind fun _ _ =>
      (noPanic_ensure _ _).bind fun _ _ => (noPanic_ensure _ _).bind fun _ nonempty => ?_
    exact (reduceLoop_noPanic (ensure_eq_ok_iff.mp nonempty)
      le_rfl).bind fun _ _ => noPanic_ensure _ _

/--
Accepted leaves are leaves of the tree, from the first index on as far as the tree has
levels to look at it.
-/
theorem verify_sound (free : CollisionFree hasher isLeaf)
    (areLeaves : ∀ index < count, isLeaf (leaf index)) (fits : count ≤ 2 ^ 63)
    (hashesAreLeaves : ∀ hash ∈ leafHashes, isLeaf hash)
    (accepted : proof.verify hasher (rootHash hasher leaf count) (some first) leafHashes = .ok ()) :
    leafHashes ≠ [] ∧ first % 2 ^ clog 2 count + leafHashes.length ≤ count ∧
      InMemoryAccumulator.LeavesFrom leaf (first % 2 ^ clog 2 count) leafHashes ∧
      proof.leftSiblings.reverse =
        InMemoryAccumulator.forestRoots hasher leaf 0 (first % 2 ^ clog 2 count) := by
  obtain ⟨nonempty, climbed⟩ := verify_eq_ok accepted
  obtain ⟨levels, level, heights, row, siblings, -⟩ :=
    reduceLoop_sound free areLeaves nonempty climbed
  obtain ⟨head, tail, shape⟩ := exists_cons_of_ne_nil nonempty
  -- The hashes are those of leaves, so the row is at the bottom.
  cases level with
  | succ level =>
    rw [shape] at row
    have isLeafHead := hashesAreLeaves head (shape ▸ mem_cons_self)
    exact (leaf_ne_padded_succ free isLeafHead row.1).elim
  | zero =>
    rw [zero_add] at heights
    subst heights
    have low : clog 2 count ≤ 63 := (clog_le_iff_le_pow (by decide)).mpr fits
    rw [pathIndex_fromLeafIndex low] at row siblings
    generalize first % 2 ^ clog 2 count = start at row siblings
    have isPresent : ∀ offset (inside : offset < leafHashes.length),
          start + offset < count ∧ leafHashes.get ⟨offset, inside⟩ = leaf (start + offset) := by
      intro offset inside
      have isPadded := row_get row offset inside
      rw [paddedHash] at isPadded
      split at isPadded
      · exact ⟨by assumption, isPadded⟩
      · exact (free.leaf_ne_placeholder (hashesAreLeaves _ (get_mem _ _)) isPadded).elim
    have positive : 0 < leafHashes.length := length_pos_iff.mpr nonempty
    have bound : start + leafHashes.length ≤ count := by
      have last := (isPresent (leafHashes.length - 1) (by omega)).1
      omega
    refine ⟨nonempty, bound, fun offset inside => (isPresent offset inside).2, ?_⟩
    rw [siblings, InMemoryAccumulator.forestRoots]
    apply map_congr_left
    intro node member
    have stop := stop_le_of_mem_frozenNodes member
    exact paddedHash_of_stop_le hasher leaf (by
      change node.stop ≤ count
      omega)

end Diem.AccumulatorRangeProof
