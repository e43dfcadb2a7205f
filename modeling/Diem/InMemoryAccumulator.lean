import Diem.Fallible
import Diem.MerkleForest

namespace Diem

open MerkleForest Word64

/-!
# The in-memory Merkle accumulator

An accumulator keeps the roots of its frozen subtrees from left to right, its leaf
count and its root hash (`types/src/proof/accumulator/mod.rs`).  Appending works
like incrementing a binary counter: every carry merges the two rightmost subtrees.
A stack of subtree roots is a list whose head is the rightmost root.
-/

variable {Hash : Type}

/-- The deepest proof of an accumulator. -/
def maxAccumulatorProofDepth : Nat := 63

/-- The most leaves an accumulator can hold. -/
def maxAccumulatorLeaves : Nat := 1 <<< maxAccumulatorProofDepth

/-- The frozen subtree roots, leaf count and root hash of an accumulator. -/
structure InMemoryAccumulator (Hash : Type) where
  frozenSubtreeRoots : List Hash
  numLeaves : Nat
  rootHash : Hash
  deriving DecidableEq

namespace InMemoryAccumulator

variable (hasher : Hasher Hash) (accumulator : InMemoryAccumulator Hash)

/-- The loop of `computeRootHash`; 64 shifts empty every bitmap. -/
def computeRootLoop : (bits bitmap : Nat) → Hash → List Hash → Fallible Hash
  | 0, _, currentHash, _ => .ok currentHash
  | bits + 1, bitmap, currentHash, roots =>
    if bitmap > 0 then
      if bitmap &&& 1 ≠ 0 then
        match roots with
        | [] => .error (.panic "This frozen subtree should exist.")
        | root :: rest =>
          computeRootLoop bits (bitmap >>> 1) (hasher.internal root currentHash) rest
      else
        computeRootLoop bits (bitmap >>> 1) (hasher.internal currentHash hasher.placeholder) roots
    else
      .ok currentHash

/-- The root hash over given frozen subtree roots. -/
def computeRootHash (frozenSubtreeRoots : List Hash) (numLeaves : Nat) : Fallible Hash :=
  match frozenSubtreeRoots with
  | [] => .ok hasher.placeholder
  | [root] => .ok root
  | _ =>
    computeRootLoop hasher 64 (numLeaves >>> trailingZeros numLeaves)
      hasher.placeholder frozenSubtreeRoots.reverse

/-- Build an accumulator from its frozen subtree roots. -/
def new (frozenSubtreeRoots : List Hash) (numLeaves : Nat) :
    Fallible (InMemoryAccumulator Hash) := do
  Fallible.ensure (frozenSubtreeRoots.length = countOnes numLeaves)
    (s!"The number of frozen subtrees does not match the number of leaves. " ++
      s!"frozen_subtree_roots.len(): {frozenSubtreeRoots.length}. " ++
      s!"num_leaves: {numLeaves}.")
  let rootHash ← computeRootHash hasher frozenSubtreeRoots numLeaves
  return { frozenSubtreeRoots, numLeaves, rootHash }

/-- Merge the two rightmost subtrees `carries` times. -/
def mergeRightmost : (carries : Nat) → List Hash → Fallible (List Hash)
  | 0, roots => .ok roots
  | carries + 1, rightHash :: leftHash :: roots =>
    mergeRightmost carries (hasher.internal leftHash rightHash :: roots)
  | _ + 1, _ => .error (.panic "Invalid accumulator.")

/-- Append one leaf to a stack of subtree roots. -/
def appendOne (roots : List Hash) (numExistingLeaves : Nat) (leaf : Hash) : Fallible (List Hash) :=
  mergeRightmost hasher (trailingZeros (complement numExistingLeaves))
    (leaf :: roots)

/-- Append leaves one by one to a stack of subtree roots. -/
def appendLoop :
    List Hash → (roots : List Hash) → (numLeaves : Nat) →
    Fallible (List Hash × Nat)
  | [], roots, numLeaves => .ok (roots, numLeaves)
  | leaf :: leaves, roots, numLeaves => do
      let roots ← appendOne hasher roots numLeaves leaf
      appendLoop leaves roots (wrap (numLeaves + 1))

def append (leaves : List Hash) : Fallible (InMemoryAccumulator Hash) := do
  let (roots, numLeaves) ←
    appendLoop hasher leaves accumulator.frozenSubtreeRoots.reverse accumulator.numLeaves
  Fallible.unwrap (new hasher roots.reverse numLeaves)
    ("Appending leaves to a valid accumulator should create another " ++ "valid accumulator.")

def default : Fallible (InMemoryAccumulator Hash) :=
  Fallible.unwrap (new hasher [] 0) "Constructing empty accumulator should work."

def fromLeaves (leaves : List Hash) : Fallible (InMemoryAccumulator Hash) := do
  let empty ← default hasher
  append hasher empty leaves

/--
Carry a new subtree over the existing ones: while the leaf count has the bit of
the mask set, the rightmost root becomes the left half of a larger subtree.
-/
def carrySubtree (currentNumLeaves : Nat) :
    (roots : List Hash) → (currentHash : Hash) → (mask : Nat) →
    Fallible (List Hash × Nat)
  | [], currentHash, mask =>
    if currentNumLeaves &&& mask ≠ 0 then
      .error (.panic "This frozen subtree must exist.")
    else
      .ok ([currentHash], mask)
  | leftHash :: roots, currentHash, mask =>
    if currentNumLeaves &&& mask ≠ 0 then
      carrySubtree currentNumLeaves roots (hasher.internal leftHash currentHash) (shiftLeft mask 1)
    else
      .ok (currentHash :: leftHash :: roots, mask)

/--
Combine new subtrees with the rightmost frozen one while enough leaves remain.
Returns the stack of roots, the leaf count, the leaves and the subtrees left over.
-/
def combineSubtrees :
    (subtrees roots : List Hash) →
    (currentNumLeaves remainingNewLeaves rightmostSize : Nat) →
    Fallible (List Hash × Nat × Nat × List Hash)
  | subtrees, roots, currentNumLeaves, remainingNewLeaves, rightmostSize =>
    if remainingNewLeaves ≥ rightmostSize then
      match subtrees with
      | [] => .error (.error "Too few subtrees.")
      | subtree :: subtrees => do
          let (roots, mask) ← carrySubtree hasher currentNumLeaves roots subtree rightmostSize
          combineSubtrees subtrees roots (wrap (currentNumLeaves + rightmostSize))
            (remainingNewLeaves - rightmostSize) mask
    else
      .ok (roots, currentNumLeaves, remainingNewLeaves, subtrees)

/-- Append leaves that are only known through subtree roots. -/
def appendSubtrees (subtrees : List Hash) (numNewLeaves : Nat) :
    Fallible (InMemoryAccumulator Hash) := do
  Fallible.ensure (numNewLeaves ≤ sub maxAccumulatorLeaves accumulator.numLeaves)
    (s!"Too many new leaves. self.num_leaves: {accumulator.numLeaves}. " ++
      s!"num_new_leaves: {numNewLeaves}.")
  if accumulator.numLeaves = 0 then
    new hasher subtrees numNewLeaves
  else
    let (roots, currentNumLeaves, remainingNewLeaves, rest) ←
      combineSubtrees hasher subtrees accumulator.frozenSubtreeRoots.reverse
        accumulator.numLeaves numNewLeaves
        (1 <<< trailingZeros accumulator.numLeaves)
    new hasher (roots.reverse ++ rest) (wrap (currentNumLeaves + remainingNewLeaves))

/-- The version of the last leaf. -/
def version : Nat :=
  if accumulator.numLeaves = 0 then 0 else accumulator.numLeaves - 1

end InMemoryAccumulator

end Diem
