import Diem.InMemoryAccumulator

namespace Diem

open Word64

/-!
# Positions of accumulator nodes

A position is the in-order number of a node in a binary tree that counts leaves
from the left (`types/src/proof/position/mod.rs`).  All moves between nodes are bit
manipulations of that 64-bit number.
-/

/-- The in-order index of a node. -/
structure Position where
  index : Nat
  deriving DecidableEq, Repr

/-- Turn on all bits below the highest set bit. -/
def smearOnesForU64 (value : Nat) : Nat :=
  let value := value ||| value >>> 1
  let value := value ||| value >>> 2
  let value := value ||| value >>> 4
  let value := value ||| value >>> 8
  let value := value ||| value >>> 16
  value ||| value >>> 32

/-- Turn off the lowest `count` bits. -/
def turnOffRightMostNBits (value count : Nat) : Nat :=
  shiftLeft (value >>> count) count

/-- The lowest zero bit, alone. -/
def isolateRightmostZeroBit (value : Nat) : Nat :=
  complement value &&& wrap (value + 1)

/-- The number of proper descendants of a node. -/
def childrenOfNode (node : Nat) : Nat :=
  sub (shiftLeft (isolateRightmostZeroBit node) 1) 2

/-- The nodes visited before the subtree of `node` in post-order. -/
def nodesToLeftOf (node : Nat) : Nat :=
  let onesUpToLevel := sub (isolateRightmostZeroBit node) 1
  let unsetLevelZeros := node ^^^ onesUpToLevel
  sub unsetLevelZeros (countOnes unsetLevelZeros)

/-- The post-order number of the node with a given in-order number. -/
def inorderToPostorder (node : Nat) : Nat :=
  wrap (childrenOfNode node + nodesToLeftOf node)

namespace Position

variable (position : Position)

/-- The height of a node over the leaves. -/
def level : Nat := trailingZeros (complement position.index)

/-- The node at a level, counted from the left. -/
def fromLevelAndPos (level pos : Nat) : Position :=
  let levelOneBits := sub (shiftLeft 1 level) 1
  let shiftedPos := if level = 63 then 0 else shiftLeft pos (level + 1)
  ⟨shiftedPos ||| levelOneBits⟩

/-- The node with an in-order number. -/
def fromInorderIndex (index : Nat) : Position := ⟨index⟩

/-- The in-order number of a node. -/
def toInorderIndex : Nat := position.index

/-- The post-order number of a node. -/
def toPostorderIndex : Nat :=
  inorderToPostorder position.toInorderIndex

def parent : Position :=
  ⟨(position.index ||| isolateRightmostZeroBit position.index) &&&
    complement (shiftLeft (isolateRightmostZeroBit position.index) 1)⟩

/-- The two ways down from a node. -/
inductive NodeDirection where
  | left
  | right
  deriving DecidableEq, Repr

def child (direction : NodeDirection) : Position :=
  let directionBit :=
    match direction with
    | .left => 0
    | .right => isolateRightmostZeroBit position.index
  ⟨(position.index ||| directionBit) &&& complement (isolateRightmostZeroBit position.index >>> 1)⟩

/-- The left child of an internal node. -/
def leftChild : Position := position.child .left

/-- The right child of an internal node. -/
def rightChild : Position := position.child .right

/-- Whether a node is the left child of its parent. -/
def isLeftChild : Bool :=
  position.index &&& shiftLeft (isolateRightmostZeroBit position.index) 1 == 0

/-- Whether a node is the right child of its parent. -/
def isRightChild : Bool := !position.isLeftChild

variable (leafIndex : Nat)

def fromLeafIndex : Position := fromLevelAndPos 0 leafIndex

/-- The other child of a node's parent. -/
def sibling : Position :=
  ⟨position.index ^^^ shiftLeft (isolateRightmostZeroBit position.index) 1⟩

/-- The smallest root above the leaves up to a leaf. -/
def rootFromLeafIndex : Position :=
  ⟨smearOnesForU64 (fromLeafIndex leafIndex).index >>> 1⟩

/-- The root of a tree with a given number of leaves. -/
def rootFromLeafCount (leafCount : Nat) : Fallible Position := do
  Fallible.require (leafCount > 0) "assertion failed: leaf_count > 0"
  return rootFromLeafIndex (leafCount - 1)

/-- The level of the root of a tree with a given number of leaves. -/
def rootLevelFromLeafCount (leafCount : Nat) : Fallible Nat := do
  Fallible.require (leafCount > 0) "assertion failed: leaf_count > 0"
  let index := leafCount - 1
  return maxAccumulatorProofDepth + 1 - leadingZeros index

/-- The rightmost leaf below a node. -/
def rightMostChild : Position :=
  ⟨sub (wrap (position.index + shiftLeft 1 position.level)) 1⟩

/-- The leftmost leaf below a node. -/
def leftMostChild : Position :=
  ⟨turnOffRightMostNBits position.index position.level⟩

/-- Whether a node covers existing leaves only, up to the given last leaf. -/
def isFreezable : Bool :=
  position.rightMostChild.index ≤ (fromLeafIndex leafIndex).index

/-- Whether a node lies right of the given last leaf altogether. -/
def isPlaceholder : Bool :=
  if position.index ≤ (fromLeafIndex leafIndex).index then
    false
  else if position.leftMostChild.index ≤ (fromLeafIndex leafIndex).index then
    false
  else
    true

end Position

/--
The loop over the sizes of full binary trees: the rest of a number, and a bit for each tree passed.
-/
def passFullTrees : (i node fullBinarySize bitmap : Nat) → Nat × Nat
  | 0, node, _, bitmap => (node, bitmap)
  | i + 1, node, fullBinarySize, bitmap =>
    if node ≥ fullBinarySize then
      passFullTrees i (node - fullBinarySize) (fullBinarySize >>> 1) (bitmap ||| shiftLeft 1 i)
    else
      passFullTrees i node (fullBinarySize >>> 1) bitmap

/-- The in-order number of the node with a given post-order number. -/
def postorderToInorder (node : Nat) : Nat :=
  let (node, bitmap) := passFullTrees 64 node (complement 0) 0
  let level := node % 2 ^ 32
  let pos := bitmap >>> level
  (Position.fromLevelAndPos level pos).toInorderIndex

/-- The state of the iterator over the frozen subtrees of an accumulator. -/
structure FrozenSubTreeIterator where
  bitmap : Nat
  seenLeaves : Nat
  deriving DecidableEq, Repr

namespace FrozenSubTreeIterator

/-- Start over a number of leaves. -/
def new (numLeaves : Nat) : FrozenSubTreeIterator where
  bitmap := numLeaves
  seenLeaves := 0

/-- The root of the largest remaining subtree, and the state after it. -/
def next (iterator : FrozenSubTreeIterator) : Option (Position × FrozenSubTreeIterator) :=
  if iterator.bitmap = 0 then
    none
  else
    let rootOffset := smearOnesForU64 iterator.bitmap >>> 1
    let numLeaves := rootOffset + 1
    let leftmostLeaf := Position.fromLeafIndex iterator.seenLeaves
    let root := Position.fromInorderIndex (wrap (leftmostLeaf.toInorderIndex + rootOffset))
    some (root,
      { bitmap := iterator.bitmap &&& complement numLeaves
        seenLeaves := wrap (iterator.seenLeaves + numLeaves) })

/-- The first items of the iterator; each item clears one of 64 bits. -/
def take : (items : Nat) → FrozenSubTreeIterator → List Position
  | 0, _ => []
  | items + 1, iterator =>
    match iterator.next with
    | none => []
    | some (root, iterator) => root :: take items iterator

def toList (iterator : FrozenSubTreeIterator) : List Position :=
  take 64 iterator

end FrozenSubTreeIterator

/-- The state of the iterator over the subtrees that extend an accumulator. -/
structure FrozenSubtreeSiblingIterator where
  currentNumLeaves : Nat
  remainingNewLeaves : Nat
  deriving DecidableEq, Repr

namespace FrozenSubtreeSiblingIterator

/-- Start from the sizes of the smaller and the larger accumulator. -/
def new (currentNumLeaves newNumLeaves : Nat) : Fallible FrozenSubtreeSiblingIterator := do
  Fallible.require (newNumLeaves ≤ maxAccumulatorLeaves)
    (s!"An accumulator can have at most 2^{maxAccumulatorProofDepth} leaves. " ++
      s!"Provided num_leaves: {newNumLeaves}.")
  Fallible.require (currentNumLeaves ≤ newNumLeaves)
    (s!"Number of leaves needs to be increasing: " ++
      s!"current_num_leaves: {currentNumLeaves}, " ++
      s!"new_num_leaves: {newNumLeaves}")
  return {
    currentNumLeaves
    remainingNewLeaves := newNumLeaves - currentNumLeaves
  }

variable (iterator : FrozenSubtreeSiblingIterator)

/-- The size of the largest subtree within the remaining leaves. -/
def nextNewLeafBatch : Nat :=
  1 <<< (maxAccumulatorProofDepth - leadingZeros iterator.remainingNewLeaves)

/-- The size of the next subtree. -/
def nextSubtreeLeaves : Nat :=
  if iterator.currentNumLeaves > 0 then
    let rightmostFrozenSubtreeLeaves := 1 <<< trailingZeros iterator.currentNumLeaves
    if iterator.remainingNewLeaves ≥ rightmostFrozenSubtreeLeaves then
      rightmostFrozenSubtreeLeaves
    else
      iterator.nextNewLeafBatch
  else
    iterator.nextNewLeafBatch

/-- The root of the next subtree, and the state after it. -/
def next : Option (Position × FrozenSubtreeSiblingIterator) :=
  if iterator.remainingNewLeaves = 0 then
    none
  else
    let firstLeafIndex := iterator.currentNumLeaves
    let lastLeafIndex := firstLeafIndex + iterator.nextSubtreeLeaves - 1
    some (.fromInorderIndex (firstLeafIndex + lastLeafIndex),
      { currentNumLeaves := iterator.currentNumLeaves + iterator.nextSubtreeLeaves
        remainingNewLeaves := iterator.remainingNewLeaves - iterator.nextSubtreeLeaves })

/-- The first items of the iterator. -/
def take : (items : Nat) → FrozenSubtreeSiblingIterator → List Position
  | 0, _ => []
  | items + 1, iterator =>
    match iterator.next with
    | none => []
    | some (root, iterator) => root :: take items iterator

/--
All items of the iterator: at most 64 subtrees complete the rightmost frozen one
and at most 64 smaller ones follow.
-/
def toList : List Position := take 128 iterator

end FrozenSubtreeSiblingIterator

end Diem
