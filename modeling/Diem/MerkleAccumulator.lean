import Diem.Position

namespace Diem

open MerkleForest

/-!
# The Merkle accumulator over storage

Storage keeps every frozen node of the accumulator under its position
(`storage/accumulator/src/lib.rs`).  Appending reads the frozen left siblings it
needs and returns the new root hash with the nodes to freeze; everything else is
computed from frozen nodes and placeholders.  A stack is a list whose head is its
top.
-/

variable {Hash : Type}

/-- Read access to the frozen nodes in storage. -/
abbrev HashReader (Hash : Type) := Position → Fallible Hash

namespace MerkleAccumulator

/-- A node in storage: its position and its hash. -/
abbrev StoredNode (Hash : Type) := Position × Hash

variable (hasher : Hasher Hash) (reader : HashReader Hash)

/--
Hash a right child together with its left sibling, which is on top of the stack of
left siblings or else in storage.
-/
def hashWithLeftSibling (sibling : Position) (hash : Hash) (leftSiblings : List (StoredNode Hash)) :
    Fallible (Hash × List (StoredNode Hash)) :=
  match leftSiblings with
  | (position, leftHash) :: rest => do
      Fallible.require (position = sibling) "assertion failed: `(left == right)`"
      return (hasher.internal leftHash hash, rest)
  | [] => do
      let leftHash ← reader sibling
      return (hasher.internal leftHash hash, [])

/-- The loop that freezes parents while the node is a right child. -/
def freezeParents :
    (steps : Nat) → Position → Hash → (leftSiblings : List (StoredNode Hash)) →
    (toFreeze : List (StoredNode Hash)) →
    Fallible (List (StoredNode Hash) × List (StoredNode Hash))
  | 0, _, _, _, _ => .error (.panic "a position has at most 63 ancestors")
  | steps + 1, pos, hash, leftSiblings, toFreeze =>
    if pos.isRightChild then do
      let (hash, leftSiblings) ← hashWithLeftSibling hasher reader pos.sibling hash leftSiblings
      let pos := pos.parent
      freezeParents steps pos hash leftSiblings (toFreeze ++ [(pos, hash)])
    else
      .ok ((pos, hash) :: leftSiblings, toFreeze)

/-- The loop over the new leaves. -/
def freezeLeaves :
    (leaves : List Hash) → (leafIndex : Nat) →
    (leftSiblings toFreeze : List (StoredNode Hash)) →
    Fallible (List (StoredNode Hash) × List (StoredNode Hash))
  | [], _, leftSiblings, toFreeze => .ok (leftSiblings, toFreeze)
  | leaf :: leaves, leafIndex, leftSiblings, toFreeze => do
      let leafPos := .fromLeafIndex leafIndex
      let (leftSiblings, toFreeze) ←
        freezeParents hasher reader 64 leafPos leaf leftSiblings (toFreeze ++ [(leafPos, leaf)])
      freezeLeaves leaves (Word64.wrap (leafIndex + 1)) leftSiblings toFreeze

/-- The loop that walks up to the root level. -/
def walkToRoot :
    (levels : Nat) → Position → Hash → List (StoredNode Hash) →
    Fallible (Hash × List (StoredNode Hash))
  | 0, _, hash, leftSiblings => .ok (hash, leftSiblings)
  | levels + 1, pos, hash, leftSiblings => do
      let (hash, leftSiblings) ←
        if pos.isLeftChild then
          pure (hasher.internal hash hasher.placeholder, leftSiblings)
        else
          hashWithLeftSibling hasher reader pos.sibling hash leftSiblings
      walkToRoot levels pos.parent hash leftSiblings

def rightmostLeafIndex (numLeaves : Nat) : Nat :=
  Word64.sub numLeaves 1

/--
The hash of a node: a placeholder, read from storage, or computed from its
children.  The recursion descends one level at a time.
-/
def getHash (numLeaves : Nat) :
    (depth : Nat) → Position → Fallible Hash
  | 0, _ => .error (.panic "a position has at most 63 levels below it")
  | depth + 1, position => do
      let idx := rightmostLeafIndex numLeaves
      if position.isPlaceholder idx then
        return hasher.placeholder
      else if position.isFreezable idx then
        reader position
      else
        let leftHash ← getHash numLeaves depth position.leftChild
        let rightHash ← getHash numLeaves depth position.rightChild
        return hasher.internal leftHash rightHash

/-- The root hash of the accumulator with a number of leaves. -/
def getRootHash (numLeaves : Nat) : Fallible Hash := do
  let root ← Position.rootFromLeafCount numLeaves
  getHash hasher reader numLeaves 65 root

/-- Append leaves: the new root hash and the nodes to freeze. -/
def append (numExistingLeaves : Nat) (newLeaves : List Hash) :
    Fallible (Hash × List (StoredNode Hash)) := do
  if newLeaves.isEmpty then
    if numExistingLeaves = 0 then
      return (hasher.placeholder, [])
    else
      let rootHash ← getRootHash hasher reader numExistingLeaves
      return (rootHash, [])
  else
    let lastNewLeafCount := Word64.wrap (numExistingLeaves + newLeaves.length)
    let rootLevel ← Position.rootLevelFromLeafCount lastNewLeafCount
    let (leftSiblings, toFreeze) ← freezeLeaves hasher reader newLeaves numExistingLeaves [] []
    match leftSiblings with
    | [] => .error (.panic "Must have at least one node")
    | (pos, hash) :: leftSiblings => do
        let (hash, leftSiblings) ←
          walkToRoot hasher reader (rootLevel - pos.level) pos hash leftSiblings
        Fallible.require leftSiblings.isEmpty "assertion failed: left_siblings.is_empty()"
        return (hash, toFreeze)

/-- The hashes of the frozen subtrees, from left to right. -/
def getFrozenSubtreeHashes (numLeaves : Nat) : Fallible (List Hash) :=
  (FrozenSubTreeIterator.new numLeaves).toList.mapM reader

/-- The subtrees that extend a smaller accumulator to this one. -/
def getConsistencyProof (fullAccLeaves subAccLeaves : Nat) : Fallible (List Hash) := do
  Fallible.ensure (subAccLeaves ≤ fullAccLeaves)
    ("Can't get accumulator consistency proof for a version newer than the " ++
      s!"local version. Local next version: {fullAccLeaves}, " ++
      s!"asked next version: {subAccLeaves}")
  let iterator ← FrozenSubtreeSiblingIterator.new subAccLeaves fullAccLeaves
  iterator.toList.mapM reader

/-- Storage that holds the given nodes and nothing else. -/
def readerOf (nodes : List (StoredNode Hash)) : HashReader Hash :=
  fun position =>
    match nodes.find? fun node => node.1 = position with
    | some (_, hash) => .ok hash
    | none => .error (.error "node is not frozen")

/-- Feed batches of leaves one after the other, freezing what each returns. -/
def appendBatches :
    (batches : List (List Hash)) → (numLeaves : Nat) →
    (nodes : List (StoredNode Hash)) → Fallible (List (StoredNode Hash))
  | [], _, nodes => .ok nodes
  | batch :: batches, numLeaves, nodes => do
      let (_, toFreeze) ← append hasher (readerOf nodes) numLeaves batch
      appendBatches batches (numLeaves + batch.length) (nodes ++ toFreeze)

end MerkleAccumulator

end Diem
