import Diem.Position

namespace Diem.Position

open Nat (two_pow_pos)
open MerkleForest Nat Word64

/-!
# Positions as nodes of the infinite tree

The in-order number of the node `index` at `level` is
`2 ^ (level + 1) * index + (2 ^ level - 1)`.  Each bit manipulation of a position is
specified through the node it moves to.
-/

/-- The position of a node, by its in-order number. -/
def ofNode (node : Node) : Position :=
  ⟨2 ^ (node.level + 1) * node.index + (2 ^ node.level - 1)⟩

/-- The node's number fits in 64 bits, together with those of its descendants. -/
def InRange (node : Node) : Prop := 2 * node.stop ≤ 2 ^ 64

theorem index_add_one (level index : Nat) :
    2 ^ (level + 1) * index + (2 ^ level - 1) + 1 = 2 ^ level * (2 * index + 1) := by
  have positive := two_pow_pos level
  have expanded : 2 ^ level * (2 * index + 1) = 2 ^ (level + 1) * index + 2 ^ level := by ring
  omega

variable {level index : Nat}

section

variable (inRange : InRange ⟨level, index⟩)
include inRange

theorem stop_le : 2 ^ (level + 1) * index + 2 ^ (level + 1) ≤ 2 ^ 64 := by
  have stop : 2 * ((index + 1) * 2 ^ level) ≤ 2 ^ 64 := inRange
  have expanded : 2 * ((index + 1) * 2 ^ level) = 2 ^ (level + 1) * index + 2 ^ (level + 1) := by
    ring
  omega

theorem index_lt : 2 ^ (level + 1) * index + (2 ^ level - 1) + 1 < 2 ^ 64 := by
  have positive := two_pow_pos level
  have stop := stop_le inRange
  omega

theorem level_lt : level < 64 := by
  have stop : 2 * ((index + 1) * 2 ^ level) ≤ 2 ^ 64 := inRange
  refine exponent_lt (Nat.succ_pos index) ?_
  nlinarith [two_pow_pos level]

end

theorem inRange_of_index_lt (levelSmall : level ≤ 63) (inside : index < 2 ^ (63 - level)) :
    InRange ⟨level, index⟩ := by
  have scaled : (index + 1) * 2 ^ level ≤ 2 ^ (63 - level) * 2 ^ level := mul_le_mul_right _ inside
  rw [pow_sub_mul_pow 2 levelSmall] at scaled
  change 2 * ((index + 1) * 2 ^ level) ≤ 2 ^ 64
  omega

theorem inRange_of_first_lt (levelSmall : level ≤ 63) (firstSmall : index * 2 ^ level < 2 ^ 63) :
    InRange ⟨level, index⟩ := by
  rw [← pow_sub_mul_pow 2 levelSmall] at firstSmall
  exact inRange_of_index_lt levelSmall (Nat.lt_of_mul_lt_mul_right firstSmall)

theorem isolateRightmostZeroBit_index (inRange : InRange ⟨level, index⟩) :
    isolateRightmostZeroBit (2 ^ (level + 1) * index + (2 ^ level - 1)) = 2 ^ level := by
  have fits := index_lt inRange
  have positive := two_pow_pos level
  have none : bitwise (fun first second => first && !second) index index = 0 := by
    apply eq_of_testBit_eq
    simp [testBit_bitwise]
  have split := @bitwise_split (fun first second => first && !second) level 0 (2 ^ level - 1)
    rfl positive (by omega) (bit true index) (bit false index)
  rw [bitwise_bit rfl, none] at split
  rw [isolateRightmostZeroBit, wrap_eq_self fits, Nat.and_comm, and_complement fits (by omega),
    index_add_one, pow_succ, mul_assoc]
  simpa using split

variable {node : Node}

theorem level_ofNode (inRange : InRange node) : (ofNode node).level = node.level := by
  have fits := index_lt inRange
  exact
    trailingZeros_complement (by omega : (2 * node.index + 1) % 2 = 1)
      (index_add_one node.level node.index) fits

theorem inRange_of_parent (parentInRange : InRange ⟨level + 1, index / 2⟩) :
    InRange ⟨level, index⟩ := by
  have stop : 2 * ((index / 2 + 1) * 2 ^ (level + 1)) ≤ 2 ^ 64 := parentInRange
  have ordered : index + 1 ≤ (index / 2 + 1) * 2 := by omega
  have scaled := mul_le_mul_right (2 ^ level) ordered
  have power : (index / 2 + 1) * 2 ^ (level + 1) = (index / 2 + 1) * 2 * 2 ^ level := by ring
  change 2 * ((index + 1) * 2 ^ level) ≤ 2 ^ 64
  omega

theorem shiftLeft_two_pow (levelSmall : level + 1 < 64) :
    Word64.shiftLeft (2 ^ level) 1 = 2 ^ (level + 1) := by
  have fits : 2 ^ (level + 1) < 2 ^ 64 := Nat.pow_lt_pow_right (by decide) levelSmall
  rw [Word64.shiftLeft, shiftLeft_eq, wrap_eq_self]
  · ring
  · rw [pow_one, ← pow_succ]
    exact fits

/-- Setting the bit over the trailing ones of a node's number. -/
theorem index_or (level index : Nat) :
    2 ^ (level + 1) * index + (2 ^ level - 1) ||| 2 ^ level =
      2 ^ (level + 1) * index + (2 ^ (level + 1) - 1) := by
  have positive := two_pow_pos level
  have raised := @bitwise_two_pow or level (2 ^ level - 1) (by simp) (by omega) false index
  simp only [bit_false, bit_true, Bool.or_true] at raised
  rw [pow_succ, mul_assoc]
  refine raised.trans ?_
  rw [mul_add]
  omega

theorem two_pow_shiftRight (level : Nat) : 2 ^ (level + 1) >>> 1 = 2 ^ level := by
  rw [Nat.shiftRight_one, pow_succ, Nat.mul_div_cancel _ (by decide)]

/-- Clearing that bit again. -/
theorem index_and_complement (inRange : InRange ⟨level, index⟩) :
    2 ^ (level + 1) * index + (2 ^ (level + 1) - 1) &&& complement (2 ^ level) =
      2 ^ (level + 1) * index + (2 ^ level - 1) := by
  have positive := two_pow_pos level
  have stop := stop_le inRange
  have shape : 2 ^ (level + 1) * index + (2 ^ (level + 1) - 1) =
      2 ^ level * (2 * index + 1) + (2 ^ level - 1) := by
    rw [← index_add_one]
    omega
  have halved : (2 * index + 1) / 2 = index := by omega
  rw [shape, and_complement_two_pow (level_lt inRange) (by omega) (by omega), halved, pow_succ,
    mul_assoc]

section

variable (parentInRange : InRange ⟨level + 1, index / 2⟩)
include parentInRange

/-- The parent of a node covers it and its sibling. -/
theorem parent_ofNode : (ofNode ⟨level, index⟩).parent = ofNode ⟨level + 1, index / 2⟩ := by
  have inRange := inRange_of_parent parentInRange
  have levelSmall := level_lt parentInRange
  have stop := stop_le inRange
  have positive := two_pow_pos level
  have power : 2 ^ (level + 1 + 1) * (index / 2) = 2 ^ (level + 1) * (2 * (index / 2)) := by ring
  simp only [parent, ofNode, isolateRightmostZeroBit_index inRange, shiftLeft_two_pow levelSmall,
    index_or]
  rw [and_complement_two_pow levelSmall (by omega) (by omega), power]

/-- A node is a left child exactly when its index is even. -/
theorem isLeftChild_ofNode : (ofNode ⟨level, index⟩).isLeftChild = (index % 2 == 0) := by
  have inRange := inRange_of_parent parentInRange
  have levelSmall := level_lt parentInRange
  have bit :
      (2 ^ (level + 1) * index + (2 ^ level - 1)).testBit (level + 1) = decide (index % 2 = 1) := by
    have small : 2 ^ level - 1 < 2 ^ (level + 1) := by
      have positive := two_pow_pos level
      omega
    rw [testBit_two_pow_mul_add index small, if_neg (by omega), Nat.sub_self, Nat.testBit_zero]
  change
    ((2 ^ (level + 1) * index + (2 ^ level - 1)) &&&
      Word64.shiftLeft
        (isolateRightmostZeroBit (2 ^ (level + 1) * index + (2 ^ level - 1))) 1 == 0) =
      (index % 2 == 0)
  rw [isolateRightmostZeroBit_index inRange, shiftLeft_two_pow levelSmall, and_two_pow, bit]
  rcases mod_two_eq_zero_or_one index with even | odd
  · simp [even]
  · simp [odd]

theorem isRightChild_ofNode : (ofNode ⟨level, index⟩).isRightChild = (index % 2 == 1) := by
  rw [isRightChild, isLeftChild_ofNode parentInRange]
  rcases mod_two_eq_zero_or_one index with even | odd
  · simp [even]
  · simp [odd]

end

/-- The sibling of a right child. -/
theorem sibling_ofNode {half : Nat} (parentInRange : InRange ⟨level + 1, half⟩) :
    (ofNode ⟨level, 2 * half + 1⟩).sibling = ofNode ⟨level, 2 * half⟩ := by
  have halved : (2 * half + 1) / 2 = half := by omega
  have inRange : InRange ⟨level, 2 * half + 1⟩ :=
    inRange_of_parent (by rw [halved]; exact parentInRange)
  have levelSmall := level_lt parentInRange
  have positive := two_pow_pos level
  have flipped := @bitwise_two_pow xor (level + 1) (2 ^ level - 1) (by simp) (by omega) true half
  simp only [sibling, ofNode, isolateRightmostZeroBit_index inRange, shiftLeft_two_pow levelSmall]
  exact congrArg _ flipped

section

variable (inRange : InRange ⟨level + 1, index⟩)
include inRange

theorem inRange_left : InRange ⟨level, 2 * index⟩ :=
  inRange_of_parent (by
    rw [Nat.mul_div_cancel_left index (by decide)]
    exact inRange)

theorem inRange_right : InRange ⟨level, 2 * index + 1⟩ :=
  inRange_of_parent (by
    have halved : (2 * index + 1) / 2 = index := by omega
    rw [halved]
    exact inRange)

theorem leftChild_ofNode : (ofNode ⟨level + 1, index⟩).leftChild = ofNode ⟨level, 2 * index⟩ := by
  have shape : 2 ^ (level + 1 + 1) * index = 2 ^ (level + 1) * (2 * index) := by ring
  simp only [leftChild, child, ofNode, isolateRightmostZeroBit_index inRange, two_pow_shiftRight,
    Nat.or_zero]
  rw [shape, index_and_complement (inRange_left inRange)]

theorem rightChild_ofNode :
    (ofNode ⟨level + 1, index⟩).rightChild = ofNode ⟨level, 2 * index + 1⟩ := by
  have positive := two_pow_pos level
  have expanded : 2 ^ (level + 1) * (2 * index + 1) =
      2 ^ (level + 1 + 1) * index + 2 ^ (level + 1) := by ring
  have shape : 2 ^ (level + 1 + 1) * index + (2 ^ (level + 1 + 1) - 1) =
      2 ^ (level + 1) * (2 * index + 1) + (2 ^ (level + 1) - 1) := by omega
  simp only [rightChild, child, ofNode, isolateRightmostZeroBit_index inRange, two_pow_shiftRight,
    index_or]
  rw [shape, index_and_complement (inRange_right inRange)]

end

theorem shiftLeft_one (levelSmall : level < 64) : Word64.shiftLeft 1 level = 2 ^ level := by
  rw [Word64.shiftLeft, shiftLeft_eq, one_mul, wrap_eq_self]
  exact Nat.pow_lt_pow_right (by decide) levelSmall

theorem fromLevelAndPos_eq (inRange : InRange ⟨level, index⟩) :
    fromLevelAndPos level index = ofNode ⟨level, index⟩ := by
  have positive := two_pow_pos level
  have fits := index_lt inRange
  have shifted : (if level = 63 then 0 else Word64.shiftLeft index (level + 1)) =
      2 ^ (level + 1) * index := by
    split_ifs with highest
    · subst highest
      omega
    · rw [Word64.shiftLeft, shiftLeft_eq, mul_comm, wrap_eq_self (by omega)]
  simp only [fromLevelAndPos, shifted, ofNode]
  rw [shiftLeft_one (level_lt inRange), sub_of_le positive (by omega),
    two_pow_add_eq_or_of_lt (by omega)]

/-- The position of a leaf is twice its index. -/
theorem fromLeafIndex_eq_ofNode {leafIndex : Nat} (fits : 2 * leafIndex < 2 ^ 64) :
    fromLeafIndex leafIndex = ofNode ⟨0, leafIndex⟩ :=
  fromLevelAndPos_eq (by simp only [InRange, Node.stop]; omega)

/-- The rightmost leaf of a subtree is the one before its end. -/
theorem rightMostChild_ofNode (inRange : InRange node) :
    (ofNode node).rightMostChild.index = 2 * (node.stop - 1) := by
  obtain ⟨level, index⟩ := node
  have levelSmall := level_lt inRange
  have positive := two_pow_pos level
  have stop : 2 * ((index + 1) * 2 ^ level) ≤ 2 ^ 64 := inRange
  have power : 2 ^ (level + 1) * index = 2 * (index * 2 ^ level) := by ring
  have expanded : (index + 1) * 2 ^ level = index * 2 ^ level + 2 ^ level := by ring
  have levelEq := level_ofNode inRange
  simp only [rightMostChild, levelEq, shiftLeft_one levelSmall, Node.stop]
  simp only [ofNode]
  rw [wrap_eq_self (by omega), sub_of_le (by omega) (by omega)]
  omega

/-- The leftmost leaf of a subtree. -/
theorem leftMostChild_ofNode (inRange : InRange ⟨level, index⟩) :
    (ofNode ⟨level, index⟩).leftMostChild.index = 2 * (index * 2 ^ level) := by
  have positive := two_pow_pos level
  have stop : 2 * ((index + 1) * 2 ^ level) ≤ 2 ^ 64 := inRange
  have expanded : (index + 1) * 2 ^ level = index * 2 ^ level + 2 ^ level := by ring
  have levelEq := level_ofNode inRange
  have shape :
      2 ^ (level + 1) * index + (2 ^ level - 1) = 2 ^ level * (2 * index) + (2 ^ level - 1) := by
    ring
  have quotient : (2 ^ (level + 1) * index + (2 ^ level - 1)) / 2 ^ level = 2 * index := by
    rw [shape, mul_add_div positive, div_eq_of_lt (by omega), add_zero]
  simp only [leftMostChild, levelEq, turnOffRightMostNBits]
  simp only [ofNode]
  rw [shiftRight_eq_div_pow, quotient, Word64.shiftLeft,
    shiftLeft_eq, mul_assoc, wrap_eq_self (by omega)]

variable {count : Nat}

theorem isFreezable_ofNode (inRange : InRange node) (positive : 0 < count)
    (fits : 2 * count ≤ 2 ^ 64) :
    (ofNode node).isFreezable (count - 1) = decide (node.stop ≤ count) := by
  rw [isFreezable, rightMostChild_ofNode inRange, fromLeafIndex_eq_ofNode (by omega)]
  simp only [ofNode]
  congr 1
  apply propext
  omega

/-- A node is a placeholder as long as none of its leaves exists. -/
theorem isPlaceholder_ofNode (inRange : InRange ⟨level, index⟩) (positive : 0 < count)
    (fits : 2 * count ≤ 2 ^ 64) :
    (ofNode ⟨level, index⟩).isPlaceholder (count - 1) = decide (count ≤ index * 2 ^ level) := by
  have nodeIndex : (ofNode ⟨level, index⟩).index = 2 * (index * 2 ^ level) + (2 ^ level - 1) := by
    simp only [ofNode]
    ring
  have leafIndex : (ofNode ⟨0, count - 1⟩).index = 2 * (count - 1) := by simp [ofNode]
  rw [isPlaceholder, leftMostChild_ofNode inRange,
    fromLeafIndex_eq_ofNode (by omega), nodeIndex, leafIndex]
  by_cases absent : count ≤ index * 2 ^ level
  · rw [if_neg (by omega), if_neg (by omega), decide_eq_true absent]
  · have present : 2 * (index * 2 ^ level) ≤ 2 * (count - 1) := by omega
    rw [if_pos present, ite_self, decide_eq_false absent]

theorem testBit_smearStep {value smeared width : Nat}
    (covered :
      ∀ bit, smeared.testBit bit = true ↔ ∃ distance < width, value.testBit (bit + distance) = true)
    (bit : Nat) :
    (smeared ||| smeared >>> width).testBit bit = true ↔
      ∃ distance < 2 * width, value.testBit (bit + distance) = true := by
  rw [testBit_or, testBit_shiftRight, Bool.or_eq_true, covered, covered]
  constructor
  · intro found
    rcases found with ⟨distance, near, isSet⟩ | ⟨distance, near, isSet⟩
    · exact ⟨distance, by omega, isSet⟩
    · refine ⟨width + distance, by omega, ?_⟩
      rw [← isSet]
      congr 1
      omega
  · intro ⟨distance, near, isSet⟩
    by_cases close : distance < width
    · exact Or.inl ⟨distance, close, isSet⟩
    · refine Or.inr ⟨distance - width, by omega, ?_⟩
      rw [← isSet]
      congr 1
      omega

/-- Smearing sets every bit up to the highest set one. -/
theorem testBit_smearOnesForU64 (value bit : Nat) :
    (smearOnesForU64 value).testBit bit = true ↔
      ∃ distance < 64, value.testBit (bit + distance) = true := by
  have start :
      ∀ bit, value.testBit bit = true ↔ ∃ distance < 1, value.testBit (bit + distance) = true := by
    intro bit
    simp
  exact
    testBit_smearStep
      (testBit_smearStep
        (testBit_smearStep (testBit_smearStep (testBit_smearStep (testBit_smearStep start))))) bit

theorem smearOnesForU64_eq {height value : Nat} (atLeast : 2 ^ height ≤ value)
    (below : value < 2 ^ (height + 1)) (heightSmall : height < 64) :
    smearOnesForU64 value = 2 ^ (height + 1) - 1 := by
  apply eq_of_testBit_eq
  intro bit
  rw [testBit_two_pow_sub_one, Bool.eq_iff_iff, testBit_smearOnesForU64, decide_eq_true_eq]
  have topBit : value.testBit height = true := by
    obtain ⟨rest, rfl⟩ := Nat.exists_eq_add_of_le atLeast
    have restSmall : rest < 2 ^ height := by omega
    have split := testBit_two_pow_mul_add 1 restSmall height
    simpa using split
  constructor
  · intro ⟨distance, near, isSet⟩
    by_contra high
    have noBit : value.testBit (bit + distance) = false := by
      apply testBit_lt_two_pow
      exact lt_of_lt_of_le below (Nat.pow_le_pow_right (by decide) (by omega))
    simp [noBit] at isSet
  · intro low
    refine ⟨height - bit, by omega, ?_⟩
    rw [← topBit]
    congr 1
    omega

/-- The root position over a number of leaves. -/
theorem rootFromLeafCount_eq (positive : 0 < count) (fits : 2 * count ≤ 2 ^ 64) :
    rootFromLeafCount count = .ok (ofNode ⟨Nat.clog 2 count, 0⟩) := by
  have leafIndex : (fromLeafIndex (count - 1)).index = 2 * (count - 1) := by
    rw [fromLeafIndex_eq_ofNode (by omega)]
    simp [ofNode]
  have root : rootFromLeafIndex (count - 1) = ofNode ⟨Nat.clog 2 count, 0⟩ := by
    apply congrArg Position.mk
    by_cases single : count = 1
    · subst single
      decide
    · have pow_lt := Nat.pow_pred_clog_lt_self (by decide : 1 < 2) (by omega : 1 < count)
      have le_pow := Nat.le_pow_clog (by decide : 1 < 2) count
      have levelPositive := Nat.clog_pos (by decide : 1 < 2) (by omega : 1 < count)
      obtain ⟨height, heightShape⟩ := Nat.exists_eq_add_one.mpr levelPositive
      rw [heightShape] at pow_lt le_pow ⊢
      simp only [Nat.pred_eq_sub_one, Nat.add_sub_cancel] at pow_lt
      have heightSmall : height + 1 < 64 := exponent_lt Nat.one_pos (by omega)
      rw [smearOnesForU64_eq (by omega : 2 ^ (height + 1) ≤ _) (by omega)
        heightSmall, Nat.shiftRight_one]
      simp only [Nat.mul_zero, Nat.zero_add]
      omega
  rw [rootFromLeafCount, Fallible.require, if_pos positive, Fallible.ok_bind, root]
  rfl

/-- The root level over a number of leaves. -/
theorem rootLevelFromLeafCount_eq (positive : 0 < count) (fits : count ≤ 2 ^ 64) :
    rootLevelFromLeafCount count = .ok (clog 2 count) := by
  have level : maxAccumulatorProofDepth + 1 - leadingZeros (count - 1) = clog 2 count := by
    by_cases single : count = 1
    · subst single
      decide
    · have nonzero : count - 1 ≠ 0 := by omega
      have logSmall : log2 (count - 1) < 64 := (log2_lt nonzero).mpr (by omega)
      have clogEq : clog 2 count = log2 (count - 1) + 1 := by
        apply le_antisymm
        · apply (clog_le_iff_le_pow (by decide)).mpr
          have below := (log2_lt nonzero).mp (lt_succ_self (count - 1).log2)
          omega
        · apply (lt_clog_iff_pow_lt (by decide)).mpr
          have above := (le_log2 nonzero).mp (le_refl _)
          omega
      rw [leadingZeros, if_neg nonzero, clogEq, maxAccumulatorProofDepth]
      omega
  rw [rootLevelFromLeafCount, Fallible.require, if_pos positive, Fallible.ok_bind]
  exact congrArg Except.ok level

theorem childrenOfNode_index (inRange : InRange ⟨level, index⟩) :
    childrenOfNode (2 ^ (level + 1) * index + (2 ^ level - 1)) = 2 ^ (level + 1) - 2 := by
  rw [childrenOfNode, isolateRightmostZeroBit_index inRange]
  by_cases levelSmall : level + 1 < 64
  · have atLeastTwo : 2 ^ 1 ≤ 2 ^ (level + 1) := Nat.pow_le_pow_right (by decide) (by omega)
    have fits : 2 ^ (level + 1) < 2 ^ 64 := Nat.pow_lt_pow_right (by decide) levelSmall
    rw [shiftLeft_two_pow levelSmall, sub_of_le (by omega) fits]
  · have highest := level_lt inRange
    rw [show level = 63 by omega]
    decide

theorem nodesToLeftOf_index (inRange : InRange ⟨level, index⟩) :
    nodesToLeftOf (2 ^ (level + 1) * index + (2 ^ level - 1)) =
      2 ^ (level + 1) * index - countOnes index := by
  have fits := index_lt inRange
  have positive := two_pow_pos level
  have powerFits : 2 ^ level < 2 ^ 64 := Nat.pow_lt_pow_right (by decide) (level_lt inRange)
  have unset : (2 ^ (level + 1) * index + (2 ^ level - 1)) ^^^ (2 ^ level - 1) =
        2 ^ (level + 1) * index := by
    have split := @bitwise_split xor level (2 ^ level - 1) (2 ^ level - 1)
      rfl (by omega) (by omega) (2 * index) 0
    rw [pow_succ, mul_assoc]
    have none : bitwise xor (2 ^ level - 1) (2 ^ level - 1) = 0 := Nat.xor_self _
    simp only [none, bitwise_zero_right, mul_zero, zero_add] at split
    exact split
  have indexFits : 2 ^ (level + 1) * index < 2 ^ 64 := by omega
  have onesSmall := countOnes_le indexFits
  simp only [nodesToLeftOf]
  rw [isolateRightmostZeroBit_index inRange, sub_of_le positive powerFits, unset,
    sub_of_le onesSmall indexFits, countOnes_two_pow_mul indexFits]

/-- The post-order number of a node. -/
theorem toPostorderIndex_ofNode {level index : Nat} (inRange : InRange ⟨level, index⟩) :
    (ofNode ⟨level, index⟩).toPostorderIndex + countOnes index + 2 =
      2 * ((index + 1) * 2 ^ level) := by
  have stop := stop_le inRange
  have atLeastTwo : 2 ^ 1 ≤ 2 ^ (level + 1) := Nat.pow_le_pow_right (by decide) (by omega)
  have expanded : 2 * ((index + 1) * 2 ^ level) = 2 ^ (level + 1) * index + 2 ^ (level + 1) := by
    ring
  have onesSmall : countOnes index ≤ 2 ^ (level + 1) * index := by
    have indexFits : 2 ^ (level + 1) * index < 2 ^ 64 := by omega
    rw [← countOnes_two_pow_mul indexFits]
    exact countOnes_le indexFits
  simp only [toPostorderIndex, toInorderIndex, ofNode, inorderToPostorder]
  rw [childrenOfNode_index inRange, nodesToLeftOf_index inRange, wrap_eq_self (by omega)]
  omega

end Diem.Position

namespace Diem.FrozenSubTreeIterator

open MerkleForest

/-- One step of the iterator yields the subtree of the highest bit. -/
theorem next_eq {height block rest : Nat} (restSmall : rest < 2 ^ height)
    (fits : 2 * (2 ^ (height + 1) * block + (2 ^ height + rest)) < 2 ^ 64) :
    next ⟨2 ^ height + rest, 2 ^ (height + 1) * block⟩ =
      some (Position.ofNode ⟨height, 2 * block⟩, ⟨rest, 2 ^ height * (2 * block + 1)⟩) := by
  have heightSmall : height < 64 := Word64.exponent_lt Nat.one_pos (by omega)
  have smeared : smearOnesForU64 (2 ^ height + rest) = 2 ^ (height + 1) - 1 :=
    Position.smearOnesForU64_eq (by omega) (by omega) heightSmall
  have offset : (2 ^ (height + 1) - 1) >>> 1 = 2 ^ height - 1 := by
    rw [Nat.shiftRight_one]
    omega
  have leaves : 2 ^ height - 1 + 1 = 2 ^ height := by omega
  have cleared : 2 ^ height + rest &&& Word64.complement (2 ^ height) = rest := by
    have clears := @Word64.and_complement_two_pow height rest 1 heightSmall restSmall (by omega)
    simpa using clears
  have leftmost : (Position.fromLeafIndex (2 ^ (height + 1) * block)).toInorderIndex =
        2 * (2 ^ (height + 1) * block) := by
    rw [Position.fromLeafIndex_eq_ofNode (by omega)]
    simp [Position.ofNode, Position.toInorderIndex]
  have seen : 2 ^ (height + 1) * block + 2 ^ height = 2 ^ height * (2 * block + 1) := by ring
  have root : 2 * (2 ^ (height + 1) * block) = 2 ^ (height + 1) * (2 * block) := by ring
  simp only [next]
  rw [if_neg (by omega), smeared, offset, leaves, leftmost,
    cleared,
    Word64.wrap_eq_self (by omega), Word64.wrap_eq_self (by omega), seen, root]
  rfl

theorem take_eq_nodesBelow {items height count block : Nat} (enough : height ≤ items)
    (inside : count < 2 ^ height) (fits : 2 * (2 ^ height * block + count) < 2 ^ 64) :
    take items ⟨count, 2 ^ height * block⟩ =
      (nodesBelow 0 height count block).map Position.ofNode := by
  induction height generalizing items count block with
  | zero =>
    have empty : count = 0 := by omega
    subst empty
    cases items <;> simp [take, next, nodesBelow]
  | succ height ih =>
    rw [nodesBelow]
    by_cases large : 2 ^ height ≤ count
    · obtain ⟨items, rfl⟩ := Nat.exists_eq_add_one.mpr (by omega : 0 < items)
      obtain ⟨rest, rfl⟩ := Nat.exists_eq_add_of_le large
      have seen : 2 ^ height * (2 * block + 1) = 2 ^ (height + 1) * block + 2 ^ height := by ring
      have tail := @ih items rest (2 * block + 1) (by omega) (by omega) (by omega)
      rw [if_pos large, take, next_eq (by omega) fits,
        Nat.add_sub_cancel_left, List.map_cons, Nat.zero_add]
      simp only [tail]
    · have seen : 2 ^ (height + 1) * block = 2 ^ height * (2 * block) := by ring
      rw [if_neg large, seen]
      exact ih (by omega) (by omega) (by omega)

theorem toList_new {count : Nat} (fits : count < 2 ^ 63) :
    (new count).toList = (frozenNodes 0 count).map Position.ofNode := by
  have listed := @take_eq_nodesBelow 64 63 count 0 (by decide) fits (by omega)
  rw [mul_zero] at listed
  rw [toList, new, listed, frozenNodes_eq_nodesBelow fits]

end Diem.FrozenSubTreeIterator
