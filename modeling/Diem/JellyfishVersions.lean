import Diem.JellyfishInsertSpec

namespace Diem

open AccountKey (uniform_nibbles)
open OrderedMap AccountKey KeyValues List Option

/-!
# The tree version by version

Putting the values of a version, one by one or in a batch, turns the tree of the
version before into the tree of the version.  What a freeze hands on is the nodes
that the version created and the nodes of the tree before that are no longer there.
-/

open CompressedTrie JellyfishTrie Function

variable {Value : Type}

/-- The value that the last of some writes gives a key. -/
def KeyValues.lastOf (writes : KeyValues Value) (key : AccountKey) : Option Value :=
  lookupEntry key writes.reverse

theorem KeyValues.lastOf_append (earlier later : KeyValues Value) :
    lastOf (earlier ++ later) = override later.lastOf earlier.lastOf := by
  funext key
  rw [lastOf, reverse_append, lookupEntry_append]
  rfl

theorem KeyValues.lastOf_singleton (key : AccountKey) (value : Value) :
    lastOf [(key, value)] = single key value :=
  items_singleton key value

/-- A write followed by others. -/
theorem KeyValues.override_lastOf_cons (key : AccountKey) (value : Value) (writes : KeyValues Value)
    (items : AccountKey → Option Value) :
    override (lastOf ((key, value) :: writes)) items =
      override writes.lastOf (override (single key value) items) := by
  have split := lastOf_append [(key, value)] writes
  rw [singleton_append, lastOf_singleton] at split
  rw [split]
  funext other
  exact Option.or_assoc

theorem KeyValues.items_insertAll (writes : KeyValues Value) :
    items (empty.insertAll writes).entries = writes.lastOf := by
  funext key
  have lookup := get?_insertAll empty writes key
  rw [get?_empty, or_none] at lookup
  exact lookup

variable {hasher : StateHasher Value} {counts : Bool}
  {cache base : TreeCache Value} {version : Nat} {trie : JellyfishTrie Value}
  {valueSet : KeyValues Value}

namespace JellyfishTrie

variable (hasher counts trie) in
/-- All nodes of a trie. -/
def nodesOf : NodeMap Value :=
  graft hasher counts (fun _ => none) [] trie

theorem nodesOf_apply (trie : JellyfishTrie Value) (version : Nat) (nibbles : NibblePath) :
    nodesOf hasher counts trie ⟨version, nibbles⟩ =
      entry hasher counts (trie.find nibbles) version := by
  simp [nodesOf, graft]

theorem nodesOf_empty : nodesOf hasher counts (.empty : JellyfishTrie Value) = fun _ => none := by
  funext key
  rw [nodesOf_apply, find_empty, entry_empty]

theorem nodesOf_root (present : trie ≠ .empty) :
    nodesOf hasher counts trie ⟨rootVersion trie, []⟩ = some (toNode hasher counts trie) := by
  rw [nodesOf_apply, find_nil, entry_of_ne_empty present, if_pos rfl]

end JellyfishTrie

namespace TreeCache

def hasNullRoot (cache : TreeCache Value) (version : Nat) : Prop :=
  (cache.rootNodeKey = ⟨version, []⟩ ∧ cache.nodeCache = empty.insert ⟨version, []⟩ .null) ∨
    (cache.rootNodeKey.nibblePath = [] ∧
      cache.rootNodeKey.version ≠ version ∧ cache.nodeCache = .empty ∧
      cache.stored cache.rootNodeKey = some .null)

variable (hasher counts cache version trie) in
/-- A cache at the start of a version, on the tree of the version before. -/
structure Ready : Prop where
  nextVersion : cache.nextVersion = version
  stale : cache.staleNodeIndexCache = ∅
  older : ∀ {key node}, nodesOf hasher counts trie key = some node → key.version < version
  readable :
    ∀ {key node}, nodesOf hasher counts trie key = some node → cache.stored key = some node
  root : (trie ≠ .empty ∧ cache.rootNodeKey = ⟨rootVersion trie, []⟩ ∧ cache.nodeCache = .empty) ∨
    (trie = .empty ∧ cache.hasNullRoot version)

variable (hasher counts) in
/-- What a version adds to the frozen part of a cache. -/
structure Advanced (before after : TreeCache Value) (version : Nat)
    (trie trie' : JellyfishTrie Value) : Prop where
  present : trie' ≠ .empty
  created : rootVersion trie' = version
  rootNodeKey : after.rootNodeKey = ⟨version, []⟩
  nextVersion : after.nextVersion = version + 1
  reader : after.reader = before.reader
  nodeCache : after.nodeCache = .empty
  stale : after.staleNodeIndexCache = ∅
  frozenNodes : ∀ key, after.frozenCache.nodeCache.get? key =
    (if key.version = version then nodesOf hasher counts trie' key
      else none).or (before.frozenCache.nodeCache.get? key)
  frozenStale : ∀ index, index ∈ after.frozenCache.staleNodeIndexCache ↔
    index ∈ before.frozenCache.staleNodeIndexCache ∨
      index.staleSinceVersion = version ∧
        (nodesOf hasher counts trie index.nodeKey).isSome = true ∧
        nodesOf hasher counts trie' index.nodeKey = none
  rootHashes : after.frozenCache.rootHashes =
    before.frozenCache.rootHashes ++ [(toNode hasher counts trie').hash hasher]
  kept : ∀ {key node}, key.version ≠ version → nodesOf hasher counts trie' key = some node →
    nodesOf hasher counts trie key = some node

variable {before after : TreeCache Value} {trie' : JellyfishTrie Value}

theorem Advanced.stored (advanced : Advanced hasher counts before after version trie trie')
    (key : NodeKey) :
    after.stored key = (if key.version = version then nodesOf hasher counts trie' key
      else none).or (before.stored key) := by
  rw [TreeCache.stored, TreeCache.stored, advanced.frozenNodes, advanced.reader, Option.or_assoc]

/-- After a version the cache is at the start of the next one. -/
theorem Advanced.ready (ready : Ready hasher counts before version trie)
    (advanced : Advanced hasher counts before after version trie trie') :
    Ready hasher counts after (version + 1) trie' where
  nextVersion := advanced.nextVersion
  stale := advanced.stale
  older := by
    intro key node found
    by_cases fresh : key.version = version
    · omega
    · have earlier := ready.older (advanced.kept fresh found)
      omega
  readable := by
    intro key node found
    rw [advanced.stored]
    by_cases fresh : key.version = version
    · rw [if_pos fresh, found, some_or]
    · rw [if_neg fresh, none_or]
      exact ready.readable (advanced.kept fresh found)
  root :=
    .inl ⟨advanced.present, by rw [advanced.rootNodeKey, advanced.created], advanced.nodeCache⟩

/-- The start of a version on a tree that is not empty. -/
theorem Ready.shows (ready : Ready hasher counts cache version trie)
    (nodeCache : cache.nodeCache = .empty) :
    Shows cache cache version (nodesOf hasher counts trie) (nodesOf hasher counts trie) where
  frame := rfl
  cached := by
    intro key
    rw [nodeCache, get?_empty]
    split
    · rename_i fresh
      cases found : nodesOf hasher counts trie key with
      | none => rfl
      | some node =>
        have earlier := ready.older found
        omega
    · rfl
  kept _ found := found
  stale := by
    intro key
    rw [ready.stale]
    constructor
    · intro member
      cases member
    · rintro ⟨some, none⟩
      rw [none] at some
      cases some
  older found := (ready.older found).ne
  readable found := ready.readable found

theorem Shows.setRootNodeKey {old current : NodeMap Value}
    (shows : Shows base cache version old current) (rootNodeKey : NodeKey) :
    Shows (base.setRootNodeKey rootNodeKey)
      (cache.setRootNodeKey rootNodeKey) version old current := by
  refine { shows with frame := ?_ }
  rw [TreeCache.setRootNodeKey, shows.frame]
  rfl

/-- Freezing hands on what the version did. -/
theorem freeze_advanced (ready : Ready hasher counts before version trie)
    (frame : base = before.setRootNodeKey ⟨version, []⟩) (present : trie' ≠ .empty)
    (created : rootVersion trie' = version)
    (shows :
      Shows base cache version (nodesOf hasher counts trie) (nodesOf hasher counts trie')) :
    ∃ after, cache.freeze hasher = .ok after ∧
      Advanced hasher counts before after version trie trie' := by
  have rootKey : cache.rootNodeKey = ⟨version, []⟩ := by
    rw [shows.frame, frame]
    rfl
  have rootNode : cache.getNode cache.rootNodeKey = .ok (toNode hasher counts trie') := by
    rw [rootKey]
    refine shows.getNode ?_
    rw [← created]
    exact nodesOf_root present
  have nextVersion : cache.nextVersion = version := by
    rw [shows.frame, frame]
    exact ready.nextVersion
  have frozen : cache.frozenCache = before.frozenCache := by
    rw [shows.frame, frame]
    rfl
  have reader : cache.reader = before.reader := by
    rw [shows.frame, frame]
    rfl
  refine ⟨_, by rw [freeze, rootNode]; rfl, ?_⟩
  exact
    { present := present
      created := created
      rootNodeKey := rootKey
      nextVersion := by simp [nextVersion]
      reader := reader
      nodeCache := rfl
      stale := rfl
      frozenNodes := by
        intro key
        rw [get?_insertAll_entries, shows.cached, frozen]
      frozenStale := by
        intro index
        rw [Finset.mem_union, frozen, Finset.mem_image, nextVersion]
        refine or_congr Iff.rfl ?_
        constructor
        · rintro ⟨key, member, rfl⟩
          exact ⟨rfl, (shows.stale key).mp member⟩
        · rintro ⟨rfl, gone⟩
          exact ⟨index.nodeKey, (shows.stale _).mpr gone, rfl⟩
      rootHashes := by rw [frozen]
      kept := shows.kept }

/-- A null root that the version itself put is removed by its first write. -/
theorem Ready.nullRoot (ready : Ready hasher counts cache version .empty)
    (null : cache.hasNullRoot version) :
    cache.getNode cache.rootNodeKey = .ok .null ∧ cache.rootNodeKey.nibblePath = [] ∧
      ∃ cache', JellyfishMerkleTree.deleteNullNode cache.rootNodeKey version cache = .ok cache' ∧
        Shows cache cache' version (nodesOf hasher counts .empty)
          (graft hasher counts (fun _ => none) [] .empty) := by
  rcases null with ⟨key, nodeCache⟩ | ⟨path, earlier, nodeCache, stored⟩
  · have shows :
        Shows cache cache version (nodesOf hasher counts .empty)
          (update (fun _ => none) ⟨version, []⟩ (some .null)) := by
      refine ⟨rfl, ?_, ?_, ?_, ?_, ?_⟩
      · intro query
        rw [nodeCache, get?_insert, get?_empty]
        by_cases same : query = ⟨version, []⟩
        · simp [same]
        · rw [if_neg (Ne.symm same), update_of_ne same]
          simp
      · intro query node differs found
        have different : query ≠ ⟨version, []⟩ := by
          rintro rfl
          exact differs rfl
        rw [update_of_ne different] at found
        cases found
      · intro query
        rw [ready.stale, nodesOf_empty]
        simp
      · intro query node found
        rw [nodesOf_empty] at found
        cases found
      · intro query node found
        rw [nodesOf_empty] at found
        cases found
    have found : update (fun _ => none) ⟨version, []⟩ (some .null)
          (⟨version, []⟩ : NodeKey) = some (.null : Node Value) :=
      update_self _ _ _
    obtain ⟨cache', deleted, shows'⟩ := shows.deleteNode found
    rw [key]
    refine ⟨shows.getNode found, rfl, cache', ?_, ?_⟩
    · rw [JellyfishMerkleTree.deleteNullNode, if_pos rfl]
      exact deleted
    · rw [update_idem] at shows'
      have nothing : update (fun _ => none) (⟨version, []⟩ : NodeKey) none =
            graft hasher counts (fun _ => none) [] (.empty : JellyfishTrie Value) := by
        rw [update_eq_self]
        exact nodesOf_empty.symm
      rwa [nothing] at shows'
  · refine ⟨?_, path, cache, if_neg earlier, ready.shows nodeCache⟩
    rw [TreeCache.getNode, nodeCache, get?_empty]
    rw [TreeCache.stored] at stored
    cases frozen : cache.frozenCache.nodeCache.get? cache.rootNodeKey with
    | some node =>
      rw [frozen, some_or] at stored
      cases stored
      rfl
    | none =>
      rw [frozen, none_or] at stored
      simp [TreeReader.getNode, stored, Fallible.okOr]

end TreeCache

namespace JellyfishMerkleTree

open TreeCache

variable {tree : JellyfishMerkleTree Value} {items : AccountKey → Option Value}
  {hashCache : Option (OrderedMap NibblePath HashValue)}

/-- Putting values one by one on a tree of the same version. -/
theorem putAll_shows {old : NodeMap Value} (writes : KeyValues Value)
    (frame : base.rootNodeKey = ⟨version, []⟩) (rootKey : cache.rootNodeKey = ⟨version, []⟩)
    (represents : Represents nibbles items [] trie) (present : trie ≠ .empty)
    (created : rootVersion trie = version)
    (shows : Shows base cache version old (nodesOf hasher tree.counts trie)) :
    ∃ cache' trie', tree.putAll hasher version writes cache = .ok cache' ∧
      Shows base cache' version old (nodesOf hasher tree.counts trie') ∧
      Represents nibbles (override writes.lastOf items) [] trie' ∧
      trie' ≠ .empty ∧ rootVersion trie' = version := by
  induction writes generalizing cache trie items with
  | nil => exact ⟨cache, trie, rfl, shows, represents, present, created⟩
  | cons write writes ih =>
    obtain ⟨key, value⟩ := write
    have changed : Below nibbles (single key value) [] key := ⟨ nil_prefix, value, if_pos rfl⟩
    have whole : [] ++ key.nibbles = key.nibbles := rfl
    obtain ⟨cache₁, inserted, shows₁⟩ :=
      insertAt_spec (Nat.zero_add _) whole represents present shows
    have shows₂ := shows₁.setRootNodeKey ⟨version, []⟩
    rw [show base.setRootNodeKey ⟨version, []⟩ = base by
      rw [← frame]; rfl] at shows₂
    obtain ⟨cache', trie', put, rest⟩ :=
      ih rfl (represents.updated uniform_nibbles version (single key value))
        (updated_present represents changed version)
        (updated_rootVersion changed) shows₂
    refine ⟨cache', trie', ?_, ?_⟩
    · rw [putAll, JellyfishMerkleTree.put, rootKey]
      rw [created] at inserted
      simp only [NibbleIterator.new, inserted]
      exact put
    · rw [override_lastOf_cons]
      exact rest

variable (ready : TreeCache.Ready hasher tree.counts cache version trie)
  (represents : Represents nibbles items [] trie)
include ready represents

theorem batchInsertAt_ready {kvs : KeyValues Value} (below : SortedBelow [] kvs)
    (nonempty : kvs ≠ [])
    (supplies : Supplies hasher tree.counts hashCache kvs.items []
      (updated uniform_nibbles version kvs.items [] trie)) :
    Grafts hasher tree.counts cache version (nodesOf hasher tree.counts trie) (fun _ => none) []
      (updated uniform_nibbles version kvs.items [] trie)
      (tree.batchInsertAt hasher version hashCache rootNibbleHeight
        cache.rootNodeKey kvs cache) := by
  rcases ready.root with ⟨present, rootKey, nodeCache⟩ | ⟨rfl, null⟩
  · rw [rootKey]
    exact batchInsertAt_spec (Nat.zero_add _) represents present below
      nonempty supplies (ready.shows nodeCache)
  · obtain ⟨found, path, cache', removed, shows⟩ := ready.nullRoot null
    change Grafts _ _ _ _ _ _ _ _
      (tree.batchInsertAtNode hasher version hashCache rootNibbleHeight _ kvs cache _)
    rw [batchInsertAtNode, Fallible.require, if_pos nonempty, found]
    simp only [Fallible.ok_bind, Fallible.ensure, if_pos path, removed]
    exact batchCreateSubtree_spec (Nat.zero_add _) below nonempty supplies shows

theorem insertAt_ready (key : AccountKey) (value : Value) :
    Grafts hasher tree.counts cache version (nodesOf hasher tree.counts trie) (fun _ => none) []
      (updated uniform_nibbles version (single key value) [] trie)
      (tree.insertAt hasher version value rootNibbleHeight cache.rootNodeKey
        (.new key.nibbles) cache) := by
  rcases ready.root with ⟨present, rootKey, nodeCache⟩ | ⟨rfl, null⟩
  · rw [rootKey]
    exact insertAt_spec (Nat.zero_add _) rfl represents present (ready.shows nodeCache)
  · obtain ⟨found, path, cache', removed, shows⟩ := ready.nullRoot null
    have whole : (NibbleIterator.new key.nibbles).getNibblePath = key.nibbles := rfl
    change Grafts _ _ _ _ _ _ _ _ (tree.insertAtNode hasher _ version _ value cache _)
    rw [insertAtNode, found, updated_empty_single _ _ nil_prefix]
    simp only [Fallible.ok_bind, Fallible.ensure, if_pos path, removed]
    exact createLeafNode_spec value whole shows

/-- A batch takes the tree to the next version. -/
theorem batch_advances (nonempty : valueSet ≠ [])
    (supplies : Supplies hasher tree.counts hashCache valueSet.lastOf []
      (updated uniform_nibbles version valueSet.lastOf [] trie)) :
    ∃ cache' root after, tree.batchInsertAt hasher version hashCache rootNibbleHeight
        cache.rootNodeKey (empty.insertAll valueSet).entries
        cache = .ok (root, cache') ∧
      (cache'.setRootNodeKey root.1).freeze hasher = .ok after ∧
      Advanced hasher tree.counts cache after version trie
        (updated uniform_nibbles version valueSet.lastOf [] trie) := by
  have below : SortedBelow [] (empty.insertAll valueSet).entries :=
    ⟨(empty.insertAll valueSet).sorted, fun kv _ => nil_prefix⟩
  obtain ⟨⟨key, value⟩, member⟩ := exists_mem_of_ne_nil valueSet.reverse (by simpa using nonempty)
  have changed : ∃ key, Below nibbles valueSet.lastOf [] key := by
    cases found : valueSet.lastOf key with
    | some value => exact ⟨key, nil_prefix, value, found⟩
    | none => exact (lookupEntry_ne_none member found).elim
  obtain ⟨changedKey, changedBelow⟩ := changed
  have kvsNonempty : (empty.insertAll valueSet).entries ≠ [] := by
    intro nothing
    have lookups := items_insertAll valueSet
    rw [nothing] at lookups
    obtain ⟨-, found, stored⟩ := changedBelow
    rw [← lookups] at stored
    cases stored
  rw [← items_insertAll] at supplies changedBelow ⊢
  obtain ⟨cache', inserted, shows⟩ :=
    batchInsertAt_ready ready represents below kvsNonempty supplies
  obtain ⟨after, frozen, advanced⟩ :=
    freeze_advanced ready rfl (updated_present represents changedBelow version)
      (updated_rootVersion changedBelow) (shows.setRootNodeKey ⟨version, []⟩)
  exact ⟨cache', _, after, inserted, frozen, advanced⟩

/-- Putting the values of a version takes the tree to the next version. -/
theorem put_advances (nonempty : valueSet ≠ []) :
    ∃ cache' after trie',
      tree.putAll hasher version valueSet cache = .ok cache' ∧ cache'.freeze hasher = .ok after ∧
        Advanced hasher tree.counts cache after version trie trie' ∧
        Represents nibbles (override valueSet.lastOf items) [] trie' := by
  cases valueSet with
  | nil => exact (nonempty rfl).elim
  | cons write writes =>
    obtain ⟨key, value⟩ := write
    have changed : Below nibbles (single key value) [] key := ⟨ nil_prefix, value, if_pos rfl⟩
    obtain ⟨cache₁, inserted, shows₁⟩ := insertAt_ready ready represents key value
    obtain ⟨cache', trie', put, shows, represents', present, created⟩ :=
      putAll_shows writes rfl rfl (represents.updated uniform_nibbles version (single key value))
        (updated_present represents changed version)
        (updated_rootVersion changed)
        (shows₁.setRootNodeKey ⟨version, []⟩)
    obtain ⟨after, frozen, advanced⟩ := freeze_advanced ready rfl present created shows
    refine ⟨cache', after, trie', ?_, frozen, advanced, ?_⟩
    · rw [putAll, JellyfishMerkleTree.put, inserted]
      exact put
    · rw [override_lastOf_cons]
      exact represents'

end JellyfishMerkleTree

end Diem
