import Diem.JellyfishReads

namespace Diem

/-!
# The cache of a tree update

A cache collects the nodes that the writes of one version create and the nodes they
make stale.  Freezing it keeps them for the batch that goes to storage, and starts
the next version (`storage/jellyfish-merkle/src/tree_cache/mod.rs`).  The counters of
new and stale nodes are left out.
-/

/-- A node that is not part of the tree from a version on. -/
structure StaleNodeIndex where
  staleSinceVersion : Nat
  nodeKey : NodeKey
  deriving DecidableEq

/-- Nodes for storage. -/
abbrev NodeBatch (Value : Type) :=
  OrderedMap NodeKey (Node Value)

/-- What the writes of some versions change in storage. -/
structure TreeUpdateBatch (Value : Type) where
  nodeBatch : NodeBatch Value
  staleNodeIndexBatch : Finset StaleNodeIndex

/-- What earlier versions of the same update created. -/
structure FrozenTreeCache (Value : Type) where
  nodeCache : NodeBatch Value
  staleNodeIndexCache : Finset StaleNodeIndex
  rootHashes : List HashValue

namespace FrozenTreeCache

/-- Nothing is frozen yet. -/
def new {Value : Type} : FrozenTreeCache Value where
  nodeCache := .empty
  staleNodeIndexCache := ∅
  rootHashes := []

end FrozenTreeCache

/-- The version before the first one. -/
def preGenesisVersion : Nat := 2 ^ 64 - 1

/-- The writes of the current version, over frozen ones and over storage. -/
structure TreeCache (Value : Type) where
  rootNodeKey : NodeKey
  nextVersion : Nat
  nodeCache : NodeBatch Value
  staleNodeIndexCache : Finset NodeKey
  frozenCache : FrozenTreeCache Value
  reader : TreeReader Value

namespace TreeCache

variable {Value : Type}

/--
A cache for the writes from a version on.  The first version starts from a null root,
unless there is a tree from before genesis.
-/
def new (reader : TreeReader Value) (nextVersion : Nat) : TreeCache Value :=
  let cache (rootNodeKey : NodeKey) (nodeCache : NodeBatch Value) :
      TreeCache Value :=
    { rootNodeKey := rootNodeKey
      nextVersion := nextVersion
      nodeCache := nodeCache
      staleNodeIndexCache := ∅
      frozenCache := .new
      reader := reader }
  if nextVersion = 0 then
    match reader (.newEmptyPath preGenesisVersion) with
    | some _ => cache (.newEmptyPath preGenesisVersion) .empty
    | none =>
      cache (NodeKey.newEmptyPath 0) (OrderedMap.empty.insert (NodeKey.newEmptyPath 0) .null)
  else
    cache (.newEmptyPath (nextVersion - 1)) .empty

variable (cache : TreeCache Value)

/-- A node of the current tree. -/
def getNode (nodeKey : NodeKey) : Fallible (Node Value) :=
  match cache.nodeCache.get? nodeKey with
  | some node => .ok node
  | none =>
    match cache.frozenCache.nodeCache.get? nodeKey with
    | some node => .ok node
    | none => cache.reader.getNode nodeKey

def setRootNodeKey (rootNodeKey : NodeKey) : TreeCache Value :=
  { cache with rootNodeKey := rootNodeKey }

/-- Add a node. -/
def putNode (nodeKey : NodeKey) (newNode : Node Value) : Fallible (TreeCache Value) :=
  match cache.nodeCache.get? nodeKey with
  | none => .ok { cache with nodeCache := cache.nodeCache.insert nodeKey newNode }
  | some _ => .error (.error ("Node with key " ++ nodeKey.debug ++ " already exists in NodeBatch"))

/-- Remove a node; a node of an earlier version becomes stale. -/
def deleteNode (oldNodeKey : NodeKey) : Fallible (TreeCache Value) :=
  match cache.nodeCache.get? oldNodeKey with
  | some _ => .ok { cache with nodeCache := cache.nodeCache.erase oldNodeKey }
  | none => do
      Fallible.require (oldNodeKey ∉ cache.staleNodeIndexCache)
        "Node gets stale twice unexpectedly."
      return { cache with
        staleNodeIndexCache := insert oldNodeKey cache.staleNodeIndexCache }

/-- End a version. -/
def freeze (hasher : StateHasher Value) (cache : TreeCache Value) : Fallible (TreeCache Value) := do
  let root ← Fallible.unwrap (cache.getNode cache.rootNodeKey)
    ("internal error: entered unreachable code: Root node with key " ++
      cache.rootNodeKey.debug ++ " must exist")
  let staleSinceVersion := cache.nextVersion
  let frozenCache : FrozenTreeCache Value :=
    { nodeCache := cache.frozenCache.nodeCache.insertAll cache.nodeCache.entries
      staleNodeIndexCache := cache.frozenCache.staleNodeIndexCache ∪
        cache.staleNodeIndexCache.image fun nodeKey => ⟨staleSinceVersion, nodeKey⟩
      rootHashes := cache.frozenCache.rootHashes ++ [root.hash hasher] }
  return { cache with
    nextVersion := cache.nextVersion + 1
    nodeCache := .empty
    staleNodeIndexCache := ∅
    frozenCache := frozenCache }

/-- The root hash of every version, and the changes for storage. -/
def into : List HashValue × TreeUpdateBatch Value :=
  (cache.frozenCache.rootHashes,
    { nodeBatch := cache.frozenCache.nodeCache
      staleNodeIndexBatch := cache.frozenCache.staleNodeIndexCache })

end TreeCache

end Diem
