import Diem.InMemoryAccumulatorSpec
import Diem.MerkleAccumulator
import Diem.PositionSpec

namespace Diem.MerkleAccumulator

open MerkleForest Position
open Position (ofNode InRange)
open InMemoryAccumulator (LeavesFrom forestRoots)
open List Nat

/-!
# The storage accumulator freezes the forest in post-order

Appending leaf `c` freezes the leaf and then one ancestor for every trailing one of
`c`.  The stack of left siblings always holds those maximal perfect subtrees that
did not exist before the call; the others are read from storage, which holds
exactly the subtrees that end at or before the old leaf count.
-/

variable {Hash : Type} (hasher : Hasher Hash) (leaf : Nat → Hash)

/-- A node as storage keeps it. -/
def stored (node : Node) : StoredNode Hash :=
  (ofNode node, node.hash hasher leaf)

/-- Storage holds every subtree over the first `count` leaves. -/
def Holds (reader : HashReader Hash) (count : Nat) : Prop :=
  ∀ node : Node, node.stop ≤ count → reader (ofNode node) = .ok (node.hash hasher leaf)

/-- The maximal subtrees that reach past the first `existing` leaves, as a stack. -/
def freshStack (existing level count : Nat) : List (StoredNode Hash) :=
  (((frozenNodes level count).filter
    fun node => existing < node.stop).map (stored hasher leaf)).reverse

/-- The ancestors of a node that a number of carries freezes. -/
def carriedNodes : (level index carries : Nat) → List Node
  | _, _, 0 => []
  | level, index, carries + 1 =>
    ⟨level + 1, index / 2⟩ :: carriedNodes (level + 1) (index / 2) carries

/-- The nodes frozen with one leaf, in the order in which they are frozen. -/
def frozenWith (leafIndex : Nat) : List Node :=
  ⟨0, leafIndex⟩ :: carriedNodes 0 leafIndex (Word64.trailingZeros (Word64.complement leafIndex))

/-- The nodes frozen with a range of leaves. -/
def frozenRange (first count : Nat) : List Node :=
  (range' first count).flatMap frozenWith

@[simp] theorem freshStack_zero (existing level : Nat) :
    freshStack hasher leaf existing level 0 = [] := by
  simp [freshStack]

theorem freshStack_even (existing level half : Nat) :
    freshStack hasher leaf existing level (2 * half) =
      freshStack hasher leaf existing (level + 1) half := by
  rw [freshStack, frozenNodes_even, freshStack]

variable {existing level : Nat}

theorem freshStack_odd_of_lt {half : Nat} (fresh : existing < (2 * half + 1) * 2 ^ level) :
    freshStack hasher leaf existing level (2 * half + 1) =
      stored hasher leaf ⟨level, 2 * half⟩ :: freshStack hasher leaf existing (level + 1) half := by
  have kept : existing < (Node.mk level (2 * half)).stop := fresh
  rw [freshStack, frozenNodes_odd, filter_append, map_append, reverse_append, freshStack]
  simp [kept]

variable {count : Nat}

theorem freshStack_of_le (old : count * 2 ^ level ≤ existing) :
    freshStack hasher leaf existing level count = [] := by
  have none : (frozenNodes level count).filter (fun node => existing < node.stop) = [] := by
    apply filter_eq_nil_iff.mpr
    intro node member
    have bound := stop_le_of_mem_frozenNodes member
    simpa using bound.trans old
  rw [freshStack, none, map_nil, reverse_nil]

theorem freshStack_two_pow_mul (existing level zeros count : Nat) :
    freshStack hasher leaf existing level (2 ^ zeros * count) =
      freshStack hasher leaf existing (level + zeros) count := by
  rw [freshStack, frozenNodes_two_pow_mul, freshStack]

variable {index : Nat}

theorem parent_inRange (levelSmall : level < 63) (firstSmall : index * 2 ^ level < 2 ^ 63) :
    InRange ⟨level + 1, index / 2⟩ := by
  have ordered : index / 2 * 2 ≤ index := div_mul_le_self index 2
  have scaled := mul_le_mul_right (2 ^ level) ordered
  have power : index / 2 * 2 ^ (level + 1) = index / 2 * 2 * 2 ^ level := by ring
  exact inRange_of_first_lt (by omega) (by omega)

theorem parent_inRange_of_stop_lt (small : (index + 1) * 2 ^ level < 2 ^ 63) :
    InRange ⟨level + 1, index / 2⟩ := by
  have levelSmall : level < 63 := Word64.exponent_lt (succ_pos index) (by rwa [Nat.mul_comm])
  exact parent_inRange levelSmall (by nlinarith)

section

variable {reader : HashReader Hash} (holds : Holds hasher leaf reader existing)
include holds

/-- The left sibling of a right child is on the stack or in storage. -/
theorem hashWithLeftSibling_eq {half : Nat} (hash : Hash) :
    hashWithLeftSibling hasher reader (ofNode ⟨level, 2 * half⟩) hash
        (freshStack hasher leaf existing level (2 * half + 1)) =
      .ok (hasher.internal (subtreeHash hasher leaf level (2 * half)) hash,
        freshStack hasher leaf existing (level + 1) half) := by
  by_cases fresh : existing < (2 * half + 1) * 2 ^ level
  · rw [freshStack_odd_of_lt hasher leaf fresh]
    simp [hashWithLeftSibling, stored, Fallible.require, Node.hash, pure, Except.pure]
  · have old : (2 * half + 1) * 2 ^ level ≤ existing := by omega
    have older : half * 2 ^ (level + 1) ≤ existing := by
      have shorter : half * 2 ^ (level + 1) = 2 * half * 2 ^ level := by ring
      nlinarith
    have read := holds ⟨level, 2 * half⟩ old
    rw [freshStack_of_le hasher leaf old, freshStack_of_le hasher leaf older]
    simp [hashWithLeftSibling, read, Node.hash, pure, Except.pure]

/-- The loop over the parents freezes one ancestor for every carry. -/
theorem freezeParents_eq {steps level index carries odd : Nat} {toFreeze : List (StoredNode Hash)}
    (isOdd : odd % 2 = 1) (shape : index + 1 = 2 ^ carries * odd) (enough : carries < steps)
    (fresh : existing < (index + 1) * 2 ^ level) (small : (index + 1) * 2 ^ level < 2 ^ 63) :
    freezeParents hasher reader steps (ofNode ⟨level, index⟩) (subtreeHash hasher leaf level index)
        (freshStack hasher leaf existing level index) toFreeze =
      .ok (freshStack hasher leaf existing level (index + 1),
        toFreeze ++ (carriedNodes level index carries).map (stored hasher leaf)) := by
  induction carries generalizing steps level index toFreeze with
  | zero =>
    obtain ⟨steps, rfl⟩ := exists_eq_add_one.mpr enough
    obtain ⟨half, rfl⟩ : ∃ half, index = 2 * half := ⟨index / 2, by omega⟩
    have leftChild : (ofNode ⟨level, 2 * half⟩).isRightChild = false := by
      rw [isRightChild_ofNode (parent_inRange_of_stop_lt small)]
      simp
    rw [freezeParents, leftChild, freshStack_even, freshStack_odd_of_lt hasher leaf fresh]
    simp [carriedNodes, stored, Node.hash]
  | succ carries ih =>
    obtain ⟨steps, rfl⟩ := exists_eq_add_one.mpr (by omega : 0 < steps)
    have doubled : 2 ^ (carries + 1) * odd = 2 * (2 ^ carries * odd) := by ring
    obtain ⟨half, rfl⟩ : ∃ half, index = 2 * half + 1 := ⟨index / 2, by omega⟩
    have halved : (2 * half + 1) / 2 = half := by omega
    have parentInRange := parent_inRange_of_stop_lt small
    have rightChild : (ofNode ⟨level, 2 * half + 1⟩).isRightChild = true := by
      rw [isRightChild_ofNode parentInRange]
      simp
    have stops : (half + 1) * 2 ^ (level + 1) = (2 * half + 1 + 1) * 2 ^ level := by ring
    have parentShape := parent_ofNode parentInRange
    rw [halved] at parentInRange parentShape
    have siblingShape := sibling_ofNode parentInRange
    have frozen := @ih steps (level + 1) half (toFreeze ++ [stored hasher leaf ⟨level + 1, half⟩])
      (by omega) (by omega) (by omega) (by omega)
    have count : 2 * half + 1 + 1 = 2 * (half + 1) := by ring
    rw [freezeParents, if_pos rightChild, siblingShape, hashWithLeftSibling_eq hasher leaf holds,
      Fallible.ok_bind, parentShape, count, freshStack_even]
    simpa [carriedNodes, halved, stored, Node.hash, subtreeHash] using frozen

/-- The loop over the leaves freezes the nodes of every leaf in turn. -/
theorem freezeLeaves_eq {first : Nat} {leaves : List Hash} {toFreeze : List (StoredNode Hash)}
    (continues : LeavesFrom leaf first leaves) (fresh : existing ≤ first)
    (small : first + leaves.length < 2 ^ 63) :
    freezeLeaves hasher reader leaves first (freshStack hasher leaf existing 0 first) toFreeze =
      .ok (freshStack hasher leaf existing 0 (first + leaves.length),
        toFreeze ++ (frozenRange first leaves.length).map (stored hasher leaf)) := by
  induction leaves generalizing first toFreeze with
  | nil => simp [freezeLeaves, frozenRange]
  | cons head rest ih =>
    rw [length_cons] at small
    have headLeaf : head = subtreeHash hasher leaf 0 first := continues 0 (succ_pos _)
    have restContinues : LeavesFrom leaf (first + 1) rest := by
      intro offset inside
      have here := continues (offset + 1) (succ_lt_succ inside)
      rw [add_right_comm, add_assoc]
      exact here
    obtain ⟨ones, odd, onesSmall, isOdd, shape⟩ :=
      Word64.exists_odd_part (succ_pos first) (by omega)
    have onesEq := Word64.trailingZeros_complement isOdd shape (by omega)
    have parents := @freezeParents_eq Hash hasher leaf existing reader holds 64 0 first ones odd
      (toFreeze ++ [stored hasher leaf ⟨0, first⟩]) isOdd shape onesSmall (by omega) (by omega)
    have leafPosition := fromLeafIndex_eq_ofNode (by omega : 2 * first < 2 ^ 64)
    have lengths : first + 1 + rest.length = first + (rest.length + 1) := by omega
    have remaining := @ih (first + 1) (toFreeze ++ (frozenWith first).map (stored hasher leaf))
      restContinues (by omega) (by omega)
    rw [freezeLeaves, headLeaf, leafPosition]
    have entry :
        (ofNode ⟨0, first⟩, subtreeHash hasher leaf 0 first) = stored hasher leaf ⟨0, first⟩ :=
      rfl
    have frozenHere : toFreeze ++ [stored hasher leaf ⟨0, first⟩] ++
            (carriedNodes 0 first ones).map (stored hasher leaf) =
          toFreeze ++ (frozenWith first).map (stored hasher leaf) := by
      rw [frozenWith, onesEq]
      simp
    simp only [entry, parents, frozenHere, Fallible.ok_bind]
    rw [Word64.wrap_eq_self (by omega), remaining, lengths]
    simp [frozenRange, range'_succ]

/-- Walking up from a node on the right edge computes the padded root. -/
theorem walkToRoot_eq {count levels level index : Nat} (small : count < 2 ^ 63)
    (rootLevel : level + levels ≤ 63) (first : index * 2 ^ level < count)
    (last : count ≤ (index + 1) * 2 ^ level) (covered : count ≤ 2 ^ (level + levels)) :
    walkToRoot hasher reader levels (ofNode ⟨level, index⟩)
        (paddedHash hasher leaf count level index)
        (freshStack hasher leaf existing level index) =
      .ok (paddedHash hasher leaf count (level + levels) 0, []) := by
  induction levels generalizing level index with
  | zero =>
    have isRoot : index = 0 := by
      rw [add_zero] at covered
      by_contra positive
      have enough : 1 * 2 ^ level ≤ index * 2 ^ level := mul_le_mul_right _ (by omega)
      omega
    subst isRoot
    simp [walkToRoot]
  | succ levels ih =>
    have parentInRange : InRange ⟨level + 1, index / 2⟩ := parent_inRange (by omega) (by omega)
    have parentShape := parent_ofNode parentInRange
    have leftChild := isLeftChild_ofNode parentInRange
    have power : 2 ^ (level + 1) = 2 * 2 ^ level := by ring
    obtain ⟨half, halfShape⟩ := even_or_odd' index
    have parentFirst : half * 2 ^ (level + 1) < count := by
      rcases halfShape with rfl | rfl
      · nlinarith
      · nlinarith
    have parentLast : count ≤ (half + 1) * 2 ^ (level + 1) := by
      rcases halfShape with rfl | rfl
      · nlinarith
      · nlinarith
    have levelsEq : level + 1 + levels = level + (levels + 1) := by omega
    have walked := @ih (level + 1) half (by omega) parentFirst
      parentLast (by rw [levelsEq]; exact covered)
    rw [paddedHash_succ hasher leaf parentFirst, levelsEq] at walked
    rcases halfShape with rfl | rfl
    · have halved : 2 * half / 2 = half := by omega
      have rightAbsent : paddedHash hasher leaf count level (2 * half + 1) = hasher.placeholder :=
        paddedHash_of_le_first hasher leaf last
      rw [rightAbsent] at walked
      rw [walkToRoot, leftChild, parentShape, freshStack_even]
      simpa [pure, Except.pure] using walked
    · have halved : (2 * half + 1) / 2 = half := by omega
      have leftComplete : paddedHash hasher leaf count level (2 * half) =
            subtreeHash hasher leaf level (2 * half) :=
        paddedHash_of_stop_le hasher leaf first.le
      rw [halved] at parentShape parentInRange
      rw [leftComplete] at walked
      have siblingShape := sibling_ofNode parentInRange
      rw [walkToRoot, leftChild, parentShape, siblingShape,
        hashWithLeftSibling_eq hasher leaf holds]
      simpa using walked

end

variable {reader : HashReader Hash} {depth : Nat}

section

variable (holds : Holds hasher leaf reader count) (positive : 0 < count) (small : count < 2 ^ 63)
  (inRange : InRange ⟨level, index⟩)
include holds positive small inRange

theorem getHash_succ :
    getHash hasher reader count (depth + 1) (ofNode ⟨level, index⟩) =
      if count ≤ index * 2 ^ level then
        .ok hasher.placeholder
      else if (index + 1) * 2 ^ level ≤ count then
        .ok (subtreeHash hasher leaf level index)
      else do
        let leftHash ← getHash hasher reader count depth (ofNode ⟨level, index⟩).leftChild
        let rightHash ← getHash hasher reader count depth (ofNode ⟨level, index⟩).rightChild
        return hasher.internal leftHash rightHash := by
  have lastLeaf : rightmostLeafIndex count = count - 1 := Word64.sub_of_le positive (by omega)
  rw [getHash, lastLeaf, isPlaceholder_ofNode inRange positive (by omega),
    isFreezable_ofNode inRange positive (by omega)]
  by_cases absent : count ≤ index * 2 ^ level
  · simp only [absent, decide_true, if_true]
    rfl
  · by_cases complete : (index + 1) * 2 ^ level ≤ count
    · have stopLe : (Node.mk level index).stop ≤ count := complete
      simp only [absent, complete, stopLe, decide_true, decide_false, if_true]
      exact holds ⟨level, index⟩ complete
    · have stopNotLe : ¬(Node.mk level index).stop ≤ count := complete
      simp only [absent, complete, stopNotLe, decide_false, if_false]
      rfl

/-- Every node's hash is computed from storage. -/
theorem getHash_eq (enough : level < depth) :
    getHash hasher reader count depth (ofNode ⟨level, index⟩) =
      .ok (paddedHash hasher leaf count level index) := by
  induction level generalizing depth index with
  | zero =>
    obtain ⟨depth, rfl⟩ := exists_eq_add_one.mpr enough
    rw [getHash_succ hasher leaf holds positive small inRange]
    by_cases absent : count ≤ index * 2 ^ 0
    · rw [if_pos absent, paddedHash_of_le_first hasher leaf absent]
    · have complete : (index + 1) * 2 ^ 0 ≤ count := by omega
      rw [if_neg absent, if_pos complete, paddedHash_of_stop_le hasher leaf complete]
  | succ level ih =>
    obtain ⟨depth, rfl⟩ := exists_eq_add_one.mpr (by omega : 0 < depth)
    have leftHash := ih (inRange_left inRange) (by omega : level < depth)
    have rightHash := ih (inRange_right inRange) (by omega : level < depth)
    rw [getHash_succ hasher leaf holds positive small inRange]
    by_cases absent : count ≤ index * 2 ^ (level + 1)
    · rw [if_pos absent, paddedHash_of_le_first hasher leaf absent]
    by_cases complete : (index + 1) * 2 ^ (level + 1) ≤ count
    · rw [if_neg absent, if_pos complete, paddedHash_of_stop_le hasher leaf complete]
    · rw [if_neg absent, if_neg complete, leftChild_ofNode inRange, rightChild_ofNode inRange,
        leftHash, rightHash, paddedHash_succ hasher leaf (by omega)]
      rfl

end

theorem clog_le_of_lt (small : count < 2 ^ 63) : clog 2 count ≤ 63 := clog_le_of_le_pow small.le

/-- The root hash read back from storage. -/
theorem getRootHash_eq (holds : Holds hasher leaf reader count) (positive : 0 < count)
    (small : count < 2 ^ 63) :
    getRootHash hasher reader count = .ok (MerkleForest.rootHash hasher leaf count) := by
  have levelSmall := clog_le_of_lt small
  have inRange : InRange ⟨clog 2 count, 0⟩ := inRange_of_first_lt levelSmall (by omega)
  rw [getRootHash, rootFromLeafCount_eq positive (by omega), Fallible.ok_bind,
    getHash_eq hasher leaf holds positive small inRange (by omega)]
  rfl

/-- Appending returns the root of the longer list and freezes its new nodes. -/
theorem append_eq {leaves : List Hash} (holds : Holds hasher leaf reader existing)
    (continues : LeavesFrom leaf existing leaves) (small : existing + leaves.length < 2 ^ 63) :
    append hasher reader existing leaves =
      .ok (MerkleForest.rootHash hasher leaf (existing + leaves.length),
        (frozenRange existing leaves.length).map (stored hasher leaf)) := by
  by_cases empty : leaves = []
  · subst empty
    by_cases noLeaves : existing = 0
    · subst noLeaves
      rfl
    · have root := getRootHash_eq hasher leaf holds (pos_of_ne_zero noLeaves) small
      simp [append, noLeaves, root, frozenRange, pure, Except.pure]
  · have lengthPositive : 0 < leaves.length := length_pos_of_ne_nil empty
    generalize countEq : existing + leaves.length = count at small ⊢
    have positive : 0 < count := by omega
    have rootLevel := rootLevelFromLeafCount_eq positive (by omega)
    have startStack : freshStack hasher leaf existing 0 existing = [] :=
      freshStack_of_le hasher leaf (by omega)
    have frozen := @freezeLeaves_eq Hash hasher leaf existing reader holds existing leaves []
      continues (le_refl _) (by omega)
    obtain ⟨zeros, odd, zerosSmall, isOdd, shape⟩ := Word64.exists_odd_part positive (by omega)
    obtain ⟨half, rfl⟩ : ∃ half, odd = 2 * half + 1 := ⟨odd / 2, by omega⟩
    have lastStop : (2 * half + 1) * 2 ^ zeros = count := by rw [shape, mul_comm]
    have stackShape : freshStack hasher leaf existing 0 count =
          stored hasher leaf ⟨zeros, 2 * half⟩ ::
            freshStack hasher leaf existing zeros (2 * half) := by
      have shifted := freshStack_two_pow_mul hasher leaf existing 0 zeros (2 * half + 1)
      rw [← shape, zero_add] at shifted
      rw [shifted, freshStack_odd_of_lt hasher leaf (by omega), freshStack_even]
    have inRange : InRange ⟨zeros, 2 * half⟩ := by
      change 2 * ((2 * half + 1) * 2 ^ zeros) ≤ 2 ^ 64
      omega
    have zerosLe : zeros ≤ clog 2 count := by
      apply (Nat.pow_le_pow_iff_right (by decide : 1 < 2)).mp
      have covered := Nat.le_pow_clog (by decide : 1 < 2) count
      nlinarith
    have levels : zeros + (clog 2 count - zeros) = clog 2 count := by omega
    have startHash :
        subtreeHash hasher leaf zeros (2 * half) = paddedHash hasher leaf count zeros (2 * half) :=
      (paddedHash_of_stop_le hasher leaf lastStop.le).symm
    have walked := @walkToRoot_eq Hash hasher leaf existing reader holds count
      (clog 2 count - zeros) zeros (2 * half) small
      (by rw [levels]; exact clog_le_of_lt small) (by nlinarith)
      lastStop.ge
      (by rw [levels]; exact le_pow_clog (by decide) count)
    rw [levels] at walked
    rw [startStack, countEq, stackShape, nil_append] at frozen
    have notEmpty : leaves.isEmpty = false := by simp [empty]
    simp only [append, notEmpty, countEq, Word64.wrap_eq_self
      (by omega : count < 2 ^ 64), rootLevel, frozen, Fallible.ok_bind,
      stored, Node.hash, level_ofNode inRange, startHash, walked]
    rfl

end Diem.MerkleAccumulator
