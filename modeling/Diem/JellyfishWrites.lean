import Diem.TreeCache

namespace Diem

open Fallible

/-!
# Writing to the Jellyfish Merkle tree

Values are put one by one or in batches, version by version.  Nodes on the way to a
changed key are created anew, the nodes they replace become stale
(`storage/jellyfish-merkle/src/lib.rs`).  Recursion goes down one nibble a level, so
it is bounded by the height of the tree.
-/

/-- An iterator over nibbles, by what it has visited and what is left. -/
structure NibbleIterator where
  visited : NibblePath
  remaining : NibblePath

namespace NibbleIterator

def new (nibbles : NibblePath) : NibbleIterator where
  visited := []
  remaining := nibbles

variable (iterator : NibbleIterator)

def next : Option (Nibble × NibbleIterator) :=
  match iterator.remaining with
  | [] => none
  | nibble :: rest => some (nibble, ⟨iterator.visited ++ [nibble], rest⟩)

/-- An iterator over the nibbles visited so far. -/
def visitedNibbles : NibbleIterator := new iterator.visited

/-- An iterator over the nibbles left. -/
def remainingNibbles : NibbleIterator := new iterator.remaining

def getNibblePath : NibblePath :=
  iterator.visited ++ iterator.remaining

/-- The number of nibbles of the whole path. -/
def numNibbles : Nat := iterator.getNibblePath.length

/-- Nothing is left. -/
def isFinished : Bool := iterator.remaining.isEmpty

/-- Go on by a number of nibbles. -/
def advance (count : Nat) : NibbleIterator where
  visited := iterator.visited ++ iterator.remaining.take count
  remaining := iterator.remaining.drop count

/-- The number of nibbles that two paths start with in common. -/
def countCommon : NibblePath → NibblePath → Nat
  | first :: firstRest, second :: secondRest =>
    if first = second then countCommon firstRest secondRest + 1 else 0
  | _, _ => 0

/-- Advance both iterators while their next nibbles are the same. -/
def skipCommonPrefix (first second : NibbleIterator) : Nat × NibbleIterator × NibbleIterator :=
  let count := countCommon first.remaining second.remaining
  (count, first.advance count, second.advance count)

end NibbleIterator

/-- The key with given nibbles, if they are all there. -/
def AccountKey.fromNibbles (nibbles : NibblePath) : Option AccountKey :=
  if length : nibbles.length = rootNibbleHeight then
    some ⟨nibbles, length⟩
  else
    none

/-- Values to be put, by key. -/
abbrev KeyValues (Value : Type) := List (AccountKey × Value)

namespace KeyValues

variable {Value : Type} (kvs : KeyValues Value) (nibbleIdx : Nat)

/-- A nibble of the key at a position; the position is always one of the list. -/
def nibbleAt (index : Nat) : Nibble :=
  match kvs[index]? with
  | some kv => kv.1.getNibble nibbleIdx
  | none => 0

/-- Binary search for the last position with the nibble. -/
def lastIndexOfNibble (curNibble : Nibble) : (loops i j : Nat) → Nat
  | 0, i, _ => i
  | loops + 1, i, j =>
    if i < j then
      let mid := j - (j - i) / 2
      if nibbleAt kvs nibbleIdx mid > curNibble then
        lastIndexOfNibble curNibble loops i (mid - 1)
      else
        lastIndexOfNibble curNibble loops mid j
    else
      i

/-- The ranges of positions with the same nibble, from a position on. -/
def nibbleRangesFrom : (loops pos : Nat) → List (Nat × Nat)
  | 0, _ => []
  | loops + 1, pos =>
    if pos < kvs.length then
      let last :=
        lastIndexOfNibble kvs nibbleIdx (nibbleAt kvs nibbleIdx pos) kvs.length pos (kvs.length - 1)
      (pos, last) :: nibbleRangesFrom loops (last + 1)
    else
      []

/-- The parts of sorted keys that have the same nibble. -/
def nibbleSlices : Fallible (List (KeyValues Value)) := do
  require (nibbleIdx < rootNibbleHeight) "assertion failed: nibble_idx < ROOT_NIBBLE_HEIGHT"
  return (nibbleRangesFrom kvs nibbleIdx kvs.length 0).map fun range =>
    (kvs.drop range.1).take (range.2 - range.1 + 1)

def firstNibble : Nibble := nibbleAt kvs nibbleIdx 0

end KeyValues

/-- A tree over a storage. -/
structure JellyfishMerkleTree (Value : Type) where
  reader : TreeReader Value
  leafCountMigration : Bool

namespace JellyfishMerkleTree

variable {Value : Type} (hasher : StateHasher Value)

/-- The node an insertion returns, with its key and the cache after it. -/
abbrev Inserted (Value : Type) :=
  (NodeKey × Node Value) × TreeCache Value

variable (nodeKey : NodeKey)

/-- The hash of a node, from the given hashes if there are any. -/
def getHash (node : Node Value)
    (hashCache : Option (OrderedMap NibblePath HashValue)) : Fallible HashValue :=
  match hashCache with
  | some cache =>
    expect (cache.get? nodeKey.nibblePath)
      ("internal error: entered unreachable code: " ++ nodeKey.debug ++
        " can not be found in hash cache")
  | none => .ok (node.hash hasher)

section Batch

/-- Build the children of some slices one after the other. -/
def insertChildren (version depth : Nat) (hashCache : Option (OrderedMap NibblePath HashValue))
    (insertChild : Nibble → KeyValues Value → TreeCache Value → Fallible (Inserted Value)) :
    List (KeyValues Value) → Children → TreeCache Value →
    Fallible (Children × TreeCache Value)
  | [], children, cache => .ok (children, cache)
  | kvs :: rest, children, cache => do
      let childIndex := kvs.firstNibble depth
      let ((newChildNodeKey, newChildNode), cache) ← insertChild childIndex kvs cache
      let hash ← getHash hasher newChildNodeKey newChildNode hashCache
      let nodeType ← newChildNode.nodeType
      insertChildren version depth hashCache insertChild rest
        (children.insert childIndex ⟨hash, version, nodeType⟩) cache

variable (tree : JellyfishMerkleTree Value)

/-- Add an internal node with some children. -/
def putInternalNode (nodeKey : NodeKey) (children : Children) (cache : TreeCache Value) :
    Fallible (Inserted Value) := do
  let newInternalNode ← InternalNode.newMigration children tree.leafCountMigration
  let cache ← cache.putNode nodeKey (.internal newInternalNode)
  return ((nodeKey, .internal newInternalNode), cache)

def putLeafNode (key : AccountKey) (value : Value) (cache : TreeCache Value) :
    Fallible (Inserted Value) := do
  let newLeafNode := .leaf (.new hasher key value)
  let cache ← cache.putNode nodeKey newLeafNode
  return ((nodeKey, newLeafNode), cache)

variable (version : Nat)

/-- Remove a null root of the same version. -/
def deleteNullNode (cache : TreeCache Value) : Fallible (TreeCache Value) :=
  if nodeKey.version = version then cache.deleteNode nodeKey else .ok cache

/-- The depth at which some levels are left. -/
def depthAt (height : Nat) : Nat := rootNibbleHeight - height

variable (hashCache : Option (OrderedMap NibblePath HashValue))

/--
The subtree of some keys where there is none yet.  At the lowest level only a single
key is left: `NibbleRangeIterator::new` asserts that there is a nibble to split by.
-/
def batchCreateSubtree :
    (height : Nat) → NodeKey → KeyValues Value → TreeCache Value →
    Fallible (Inserted Value)
  | _, nodeKey, [(key, value)], cache => putLeafNode hasher nodeKey key value cache
  | 0, _, _, _ => .error (.panic "assertion failed: nibble_idx < ROOT_NIBBLE_HEIGHT")
  | height + 1, nodeKey, kvs, cache => do
      let slices ← kvs.nibbleSlices (depthAt (height + 1))
      let (children, cache) ←
        insertChildren hasher version (depthAt (height + 1)) hashCache
          (fun childIndex kvs cache =>
            batchCreateSubtree height (nodeKey.genChildNodeKey version childIndex) kvs cache)
          slices .new cache
      tree.putInternalNode nodeKey children cache

/-- The existing leaf among new children, if no new key shares its nibble. -/
def putExistingLeaf (nodeKey : NodeKey) (existingLeafNode : LeafNode Value)
    (existingLeafBucket : Nibble) (isolatedExistingLeaf : Bool) (children : Children)
    (cache : TreeCache Value) : Fallible (Children × TreeCache Value) :=
  if isolatedExistingLeaf then do
    let cache ←
      cache.putNode (nodeKey.genChildNodeKey version existingLeafBucket) (.leaf existingLeafNode)
    return (children.insert existingLeafBucket
      ⟨existingLeafNode.hash hasher, version, .leaf⟩, cache)
  else
    .ok (children, cache)

/-- The subtree of some keys in place of a leaf. -/
def batchCreateSubtreeWithExistingLeaf (existingLeafNode : LeafNode Value) :
    (height : Nat) → NodeKey → KeyValues Value → TreeCache Value →
    Fallible (Inserted Value)
  | 0, nodeKey, kvs, cache =>
    match kvs with
    | [(key, value)] =>
      if key = existingLeafNode.accountKey then
        putLeafNode hasher nodeKey key value cache
      else
        .error (.panic "assertion failed: nibble_idx < ROOT_NIBBLE_HEIGHT")
    | _ => .error (.panic "assertion failed: nibble_idx < ROOT_NIBBLE_HEIGHT")
  | height + 1, nodeKey, kvs, cache =>
    let split : Fallible (Inserted Value) := do
      let depth := depthAt (height + 1)
      let existingLeafBucket := existingLeafNode.accountKey.getNibble depth
      let slices ← kvs.nibbleSlices depth
      let (children, cache) ←
        insertChildren hasher version depth hashCache
          (fun childIndex kvs cache =>
            let childNodeKey := nodeKey.genChildNodeKey version childIndex
            if existingLeafBucket = childIndex then
              batchCreateSubtreeWithExistingLeaf existingLeafNode height childNodeKey kvs cache
            else
              tree.batchCreateSubtree hasher version hashCache height childNodeKey kvs cache)
          slices .new cache
      let isolatedExistingLeaf := slices.all fun kvs => kvs.firstNibble depth ≠ existingLeafBucket
      let (children, cache) ←
        putExistingLeaf hasher version nodeKey existingLeafNode
          existingLeafBucket isolatedExistingLeaf children cache
      tree.putInternalNode nodeKey children cache
    match kvs with
    | [(key, value)] =>
      if key = existingLeafNode.accountKey then
        putLeafNode hasher nodeKey key value cache
      else
        split
    | _ => split

/-- Insert some keys at a child of an internal node, or create the child. -/
def batchInsertAtChild (height : Nat) (nodeKey : NodeKey) (child? : Option Child)
    (insertAtChild : NodeKey → KeyValues Value → TreeCache Value → Fallible (Inserted Value))
    (childIndex : Nibble) (kvs : KeyValues Value) (cache : TreeCache Value) :
    Fallible (Inserted Value) :=
  match child? with
  | some child => insertAtChild (nodeKey.genChildNodeKey child.version childIndex) kvs cache
  | none =>
    tree.batchCreateSubtree hasher version hashCache (height - 1)
      (nodeKey.genChildNodeKey version childIndex) kvs cache

/-- Insert some keys at a node, given how to insert at a child. -/
def batchInsertAtNode (height : Nat) (nodeKey : NodeKey) (kvs : KeyValues Value)
    (cache : TreeCache Value)
    (insertAtChild : NodeKey → KeyValues Value → TreeCache Value → Fallible (Inserted Value)) :
    Fallible (Inserted Value) := do
  require (kvs ≠ []) "assertion failed: !kvs.is_empty()"
  let node ← cache.getNode nodeKey
  match node with
  | .internal internalNode =>
    let cache ← cache.deleteNode nodeKey
    let slices ← kvs.nibbleSlices (depthAt height)
    let (children, cache) ←
      insertChildren hasher version (depthAt height) hashCache
        (fun childIndex kvs cache =>
          tree.batchInsertAtChild hasher version hashCache height nodeKey
            (internalNode.child childIndex) insertAtChild childIndex kvs
            cache)
        slices internalNode.children cache
    tree.putInternalNode { nodeKey with version := version } children cache
  | .leaf leafNode =>
    let cache ← cache.deleteNode nodeKey
    tree.batchCreateSubtreeWithExistingLeaf hasher version hashCache
      leafNode height { nodeKey with version := version } kvs cache
  | .null =>
    ensure (nodeKey.nibblePath = [])
      ("Null node exists for non-root node with node_key " ++ nodeKey.debug)
    let cache ← deleteNullNode nodeKey version cache
    tree.batchCreateSubtree hasher version hashCache height (.newEmptyPath version) kvs cache

/-- Insert some keys at a node with a number of levels below it. -/
def batchInsertAt :
    (height : Nat) → NodeKey → KeyValues Value → TreeCache Value →
    Fallible (Inserted Value)
  | 0, nodeKey, kvs, cache =>
    -- the assertion in `nibbleSlices` fails before a child is needed
    tree.batchInsertAtNode hasher version hashCache 0 nodeKey kvs cache
      fun _ _ _ => .error (.panic "assertion failed: nibble_idx < ROOT_NIBBLE_HEIGHT")
  | height + 1, nodeKey, kvs, cache =>
    tree.batchInsertAtNode hasher version hashCache (height + 1) nodeKey kvs
      cache (batchInsertAt height)

/-- The loop of `batchPutValueSets`. -/
def batchPutFrom :
    (version : Nat) → List (KeyValues Value) →
    List (Option (OrderedMap NibblePath HashValue)) → TreeCache Value →
    Fallible (TreeCache Value)
  | _, [], [], cache => .ok cache
  | version, valueSet :: valueSets, hashSet :: hashSets, cache => do
      require (valueSet ≠ []) "Transactions that output empty write set should not be included."
      let dedupedAndSortedKvs := (OrderedMap.empty.insertAll valueSet).entries
      let ((newRootNodeKey, _), cache) ←
        tree.batchInsertAt hasher version hashSet rootNibbleHeight
          cache.rootNodeKey dedupedAndSortedKvs cache
      let cache ← (cache.setRootNodeKey newRootNodeKey).freeze hasher
      batchPutFrom (version + 1) valueSets hashSets cache
  | _, _, _, _ =>
    .error (.panic ("itertools: .zip_eq() reached end of one iterator before the " ++ "other"))

/-- Put the values of consecutive versions in batches. -/
def batchPutValueSets (valueSets : List (KeyValues Value))
    (nodeHashes : Option (List (OrderedMap NibblePath HashValue))) (firstVersion : Nat) :
    Fallible (List HashValue × TreeUpdateBatch Value) := do
  let hashSets :=
    match nodeHashes with
    | some hashes => hashes.map some
    | none => valueSets.map fun _ => none
  let cache ←
    tree.batchPutFrom hasher firstVersion valueSets hashSets
      (.new tree.reader firstVersion)
  return cache.into

end Batch

section Single

/-- Add the leaf of the key that the iterator goes over. -/
def createLeafNode (nibbleIter : NibbleIterator) (value : Value) (cache : TreeCache Value) :
    Fallible (Inserted Value) := do
  let key ← expect (AccountKey.fromNibbles nibbleIter.getNibblePath)
    "LeafNode must have full nibble path."
  putLeafNode hasher nodeKey key value cache

variable (tree : JellyfishMerkleTree Value)

/-- Add internal nodes with one child from the bottom up. -/
def putChain (version : Nat) :
    (count : Nat) → NibblePath → NodeKey → Node Value → TreeCache Value →
    Fallible (Inserted Value)
  | 0, _, nodeKey, nextInternalNode, cache => .ok ((nodeKey, nextInternalNode), cache)
  | count + 1, commonNibblePath, _, nextInternalNode, cache => do
      let nibble ← expect commonNibblePath.getLast?
        "Common nibble_path below internal node ran out of nibble"
      let commonNibblePath := commonNibblePath.dropLast
      let nodeType ← nextInternalNode.nodeType
      let ((nodeKey, nextInternalNode), cache) ←
        tree.putInternalNode ⟨version, commonNibblePath⟩
          (Children.new.insert nibble ⟨nextInternalNode.hash hasher, version, nodeType⟩) cache
      putChain version count commonNibblePath nodeKey nextInternalNode cache

/-- The new key and the existing one part at a nibble. -/
def splitLeafNode (existingLeafNode : LeafNode Value) (version : Nat)
    (numCommonNibblesBelowInternal : Nat)
    (nibbleIter existingLeafNibbleIterBelowInternal : NibbleIterator) (value : Value)
    (cache : TreeCache Value) : Fallible (Inserted Value) := do
  let commonNibblePath := nibbleIter.visited
  let (existingLeafIndex, _) ← expect existingLeafNibbleIterBelowInternal.next "Ran out of nibbles"
  let (newLeafIndex, nibbleIter) ← expect nibbleIter.next "Ran out of nibbles"
  require (existingLeafIndex ≠ newLeafIndex) "assertion failed: (left != right)"
  let nodeKey : NodeKey := ⟨version, commonNibblePath⟩
  let cache ←
    cache.putNode (nodeKey.genChildNodeKey version existingLeafIndex) (.leaf existingLeafNode)
  let ((_, newLeafNode), cache) ←
    createLeafNode hasher (nodeKey.genChildNodeKey version newLeafIndex) nibbleIter value cache
  let children := (Children.new.insert existingLeafIndex
    ⟨existingLeafNode.hash hasher, version, .leaf⟩).insert newLeafIndex
    ⟨newLeafNode.hash hasher, version, .leaf⟩
  let ((nodeKey, internalNode), cache) ← tree.putInternalNode nodeKey children cache
  tree.putChain hasher version numCommonNibblesBelowInternal
    commonNibblePath nodeKey internalNode cache

section At

variable (nodeKey : NodeKey) (existingLeafNode : LeafNode Value)
  (internalNode : InternalNode) (version : Nat) (child? : Option Child)
  (childIndex : Nibble) (nibbleIter : NibbleIterator) (value : Value)
  (cache : TreeCache Value)
  (insertAtChild : NodeKey → NibbleIterator → TreeCache Value → Fallible (Inserted Value))

def insertAtLeafNode : Fallible (Inserted Value) := do
  let cache ← cache.deleteNode nodeKey
  let (_, visitedNibbleIter, existingLeafNibbleIter) :=
    nibbleIter.visitedNibbles.skipCommonPrefix (.new existingLeafNode.accountKey.nibbles)
  let index := existingLeafNibbleIter.visitedNibbles.numNibbles
  require (visitedNibbleIter.isFinished = true)
    ("Leaf nodes failed to share the same visited nibbles before index " ++ s!"{index}")
  let (numCommonNibblesBelowInternal, nibbleIter,
      existingLeafNibbleIterBelowInternal) :=
    nibbleIter.skipCommonPrefix existingLeafNibbleIter.remainingNibbles
  if nibbleIter.isFinished then
    require (existingLeafNibbleIterBelowInternal.isFinished = true)
      ("assertion failed: " ++ "existing_leaf_nibble_iter_below_internal.is_finished()")
    createLeafNode hasher { nodeKey with version := version } nibbleIter value cache
  else
    tree.splitLeafNode hasher existingLeafNode version numCommonNibblesBelowInternal nibbleIter
      existingLeafNibbleIterBelowInternal value cache

/-- Insert a key at a child of an internal node, or create the child. -/
def insertAtChildNode : Fallible (Inserted Value) :=
  match child? with
  | some child => insertAtChild (nodeKey.genChildNodeKey child.version childIndex) nibbleIter cache
  | none =>
    createLeafNode hasher (nodeKey.genChildNodeKey version childIndex) nibbleIter value cache

/-- Insert a key at an internal node, given how to insert at a child. -/
def insertAtInternalNode : Fallible (Inserted Value) := do
  let cache ← cache.deleteNode nodeKey
  let (childIndex, nibbleIter) ← expect nibbleIter.next "Ran out of nibbles"
  let ((_, newChildNode), cache) ←
    insertAtChildNode hasher nodeKey version (internalNode.child childIndex)
      childIndex nibbleIter value cache insertAtChild
  let nodeType ← newChildNode.nodeType
  tree.putInternalNode { nodeKey with version := version }
    (internalNode.children.insert childIndex ⟨newChildNode.hash hasher, version, nodeType⟩) cache

/-- Insert a key at a node, given how to insert at a child. -/
def insertAtNode : Fallible (Inserted Value) := do
  let node ← cache.getNode nodeKey
  match node with
  | .internal internalNode =>
    tree.insertAtInternalNode hasher nodeKey internalNode version nibbleIter
      value cache insertAtChild
  | .leaf leafNode => tree.insertAtLeafNode hasher nodeKey leafNode version nibbleIter value cache
  | .null =>
    ensure (nodeKey.nibblePath = [])
      ("Null node exists for non-root node with node_key " ++ nodeKey.debug)
    let cache ← deleteNullNode nodeKey version cache
    createLeafNode hasher (.newEmptyPath version) nibbleIter value cache

end At

/-- Insert a key at a node with a number of levels below it. -/
def insertAt (version : Nat) (value : Value) :
    (height : Nat) → NodeKey → NibbleIterator → TreeCache Value →
    Fallible (Inserted Value)
  | 0, nodeKey, nibbleIter, cache =>
    -- there is no nibble left, so no child is needed
    tree.insertAtNode hasher nodeKey version nibbleIter value cache
      fun _ _ _ => .error (.panic "Ran out of nibbles")
  | height + 1, nodeKey, nibbleIter, cache =>
    tree.insertAtNode hasher nodeKey version nibbleIter value cache (insertAt version value height)

def put (key : AccountKey) (value : Value) (version : Nat) (cache : TreeCache Value) :
    Fallible (TreeCache Value) := do
  let ((newRootNodeKey, _), cache) ←
    tree.insertAt hasher version value rootNibbleHeight cache.rootNodeKey (.new key.nibbles) cache
  return cache.setRootNodeKey newRootNodeKey

/-- Put the values of one version one after the other. -/
def putAll (version : Nat) :
    KeyValues Value → TreeCache Value → Fallible (TreeCache Value)
  | [], cache => .ok cache
  | (key, value) :: rest, cache => do
      let cache ← tree.put hasher key value version cache
      putAll version rest cache

/-- The loop of `putValueSets`. -/
def putFrom :
    (version : Nat) → List (KeyValues Value) → TreeCache Value →
    Fallible (TreeCache Value)
  | _, [], cache => .ok cache
  | version, valueSet :: valueSets, cache => do
      require (valueSet ≠ []) "Transactions that output empty write set should not be included."
      let cache ← tree.putAll hasher version valueSet cache
      let cache ← cache.freeze hasher
      putFrom (version + 1) valueSets cache

/-- Put the values of consecutive versions one by one. -/
def putValueSets (valueSets : List (KeyValues Value)) (firstVersion : Nat) :
    Fallible (List HashValue × TreeUpdateBatch Value) := do
  let cache ← tree.putFrom hasher firstVersion valueSets (.new tree.reader firstVersion)
  return cache.into

end Single

end JellyfishMerkleTree

end Diem
