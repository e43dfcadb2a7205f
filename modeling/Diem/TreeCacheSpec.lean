import Diem.JellyfishTrie
import Diem.JellyfishWrites

namespace Diem

open Function (update update_of_ne update_self)
open AccountKey InternalNode

/-!
# The cache as a map of nodes

Between two freezes a cache stands for a map of nodes: those of the tree before the
version, without the ones that became stale, and the ones created by the version.
Reading, adding and removing nodes are the operations of that map.
-/

open CompressedTrie

variable {Value : Type}

namespace TreeCache

/-- The node in the frozen part or in storage. -/
def stored (cache : TreeCache Value) (key : NodeKey) : Option (Node Value) :=
  (cache.frozenCache.nodeCache.get? key).or (cache.reader key)

/--
The cache of a version, started as `base` on the nodes `old`, stands for the nodes
`current`.
-/
structure Shows (base cache : TreeCache Value) (version : Nat)
    (old current : NodeMap Value) : Prop where
  frame : cache =
    { base with
      nodeCache := cache.nodeCache
      staleNodeIndexCache := cache.staleNodeIndexCache }
  cached : ∀ key, cache.nodeCache.get? key =
    if key.version = version then current key else none
  kept : ∀ {key node}, key.version ≠ version → current key = some node → old key = some node
  stale : ∀ key, key ∈ cache.staleNodeIndexCache ↔ (old key).isSome = true ∧ current key = none
  older : ∀ {key node}, old key = some node → key.version ≠ version
  readable : ∀ {key node}, old key = some node → base.stored key = some node

namespace Shows

variable {base cache : TreeCache Value} {version : Nat} {old current : NodeMap Value}

theorem stored_eq (shows : Shows base cache version old current) (key : NodeKey) :
    cache.stored key = base.stored key := by
  rw [shows.frame]
  rfl

variable {key : NodeKey}

section

variable (shows : Shows base cache version old current)
include shows

theorem getNode {node : Node Value} (found : current key = some node) :
    cache.getNode key = .ok node := by
  have lookup := shows.cached key
  by_cases fresh : key.version = version
  · rw [if_pos fresh, found] at lookup
    rw [TreeCache.getNode, lookup]
  · rw [if_neg fresh] at lookup
    have below := shows.readable (shows.kept fresh found)
    rw [← shows.stored_eq, stored] at below
    rw [TreeCache.getNode, lookup]
    cases frozen : cache.frozenCache.nodeCache.get? key with
    | some other =>
      rw [frozen, Option.some_or] at below
      cases below
      rfl
    | none =>
      rw [frozen, Option.none_or] at below
      simp [TreeReader.getNode, below, Fallible.okOr]

/-- A node of this version is written or taken away. -/
theorem write {nodeCache : OrderedMap NodeKey (Node Value)} (fresh : key.version = version)
    (new : Option (Node Value))
    (lookups : ∀ query, nodeCache.get? query =
      if key = query then new else cache.nodeCache.get? query) :
    Shows base { cache with nodeCache } version old (update current key new) := by
  refine ⟨by rw [shows.frame], ?_, ?_, ?_, shows.older, shows.readable⟩
  · intro query
    rw [lookups, shows.cached]
    by_cases same : key = query
    · rw [← same, if_pos rfl, if_pos fresh, update_self]
    · rw [if_neg same, update_of_ne (Ne.symm same)]
  · intro query stays earlier found
    have different : query ≠ key := by
      rintro rfl
      exact earlier fresh
    rw [update_of_ne different] at found
    exact shows.kept earlier found
  · intro query
    rw [shows.stale]
    by_cases same : query = key
    · subst same
      have notOld : (old query).isSome = false := by
        cases before : old query with
        | none => rfl
        | some node => exact (shows.older before fresh).elim
      simp [notOld]
    · rw [update_of_ne same]

theorem deleteNode {node : Node Value} (found : current key = some node) :
    ∃ cache', cache.deleteNode key = .ok cache' ∧
      Shows base cache' version old (update current key none) := by
  have lookup := shows.cached key
  by_cases fresh : key.version = version
  · rw [if_pos fresh, found] at lookup
    exact ⟨_, by rw [TreeCache.deleteNode, lookup],
      shows.write fresh none fun query => by simp [OrderedMap.get?_erase]⟩
  · rw [if_neg fresh] at lookup
    have notStale : key ∉ cache.staleNodeIndexCache := by
      rw [shows.stale, found]
      simp
    refine ⟨_, by
      rw [TreeCache.deleteNode, lookup]
      simp only [Fallible.require, if_pos notStale, Fallible.ok_bind]
      rfl, ?_⟩
    refine ⟨by rw [shows.frame], ?_, ?_, ?_, shows.older, shows.readable⟩
    · intro query
      rw [shows.cached]
      by_cases same : query = key
      · rw [same, if_neg fresh, if_neg fresh]
      · rw [update_of_ne same]
    · intro query node earlier stays
      by_cases same : query = key
      · rw [same, update_self] at stays
        cases stays
      · rw [update_of_ne same] at stays
        exact shows.kept earlier stays
    · intro query
      rw [Finset.mem_insert, shows.stale]
      by_cases same : query = key
      · subst same
        have isOld := shows.kept fresh found
        simp [isOld]
      · rw [update_of_ne same]
        simp [same]

theorem putNode (fresh : key.version = version) (absent : current key = none) (node : Node Value) :
    ∃ cache', cache.putNode key node = .ok cache' ∧
      Shows base cache' version old (update current key (some node)) := by
  have lookup := shows.cached key
  rw [if_pos fresh, absent] at lookup
  exact ⟨_, by rw [TreeCache.putNode, lookup],
    shows.write fresh (some node) fun query => by simp [OrderedMap.get?_insert]⟩

end

end Shows

end TreeCache

section Logical

open JellyfishTrie

variable {hasher : StateHasher Value}
  {counts : Bool} {items : AccountKey → Option Value}
  {front : NibblePath}

variable {subtries : Nibble → JellyfishTrie Value}

variable (hasher counts) in
theorem mem_existing_iff {nibble : Nibble} :
    nibble ∈ (childrenOf hasher counts subtries).existing ↔ subtries nibble ≠ .empty := by
  rw [Children.existing, List.mem_filter]
  constructor
  · rintro ⟨-, present⟩ absent
    rw [childrenOf_eq_none absent] at present
    cases present
  · intro present
    obtain ⟨nodeType, -, child⟩ := childrenOf_eq_some hasher counts present
    exact ⟨List.mem_finRange nibble, by rw [child]; rfl⟩

theorem exists_child_below {key : AccountKey} (short : front.length < rootNibbleHeight)
    (below : Below nibbles items front key) :
    ∃ nibble, Below nibbles items (front ++ [nibble]) key := by
  obtain ⟨nibble, next⟩ := exists_nibble below.1 short
  exact ⟨nibble, next, below.2⟩

variable (hasher counts) in
/-- The children of a node of a trie make sense. -/
theorem newMigration_eq {version : Nat}
    (represents : Represents nibbles items front (.node version subtries)) :
    newMigration (childrenOf hasher counts subtries) counts =
      .ok (ofChildren (childrenOf hasher counts subtries) counts) := by
  cases represents with
  | @node _ _ _ first second firstBelow secondBelow different children =>
    have short := uniform_nibbles.front_length_lt firstBelow.1 secondBelow.1 different
    have present :
        ∀ {key nibble}, Below nibbles items (front ++ [nibble]) key → subtries nibble ≠ .empty := by
      intro key nibble below absent
      have child := children nibble
      rw [absent] at child
      cases child with
      | empty nothing => exact nothing key below
    obtain ⟨nibble, firstNext⟩ := exists_child_below short firstBelow
    obtain ⟨nibble', secondNext⟩ := exists_child_below short secondBelow
    have member := (mem_existing_iff hasher counts).mpr (present firstNext)
    have member' := (mem_existing_iff hasher counts).mpr (present secondNext)
    have notEmpty : (childrenOf hasher counts subtries).existing ≠ [] :=
      List.ne_nil_of_mem member
    have notOnlyLeaf : onlyLeaf (childrenOf hasher counts subtries) = false := by
      rw [onlyLeaf]
      split
      · rename_i only shape
        rw [shape, List.mem_singleton] at member member'
        subst member member'
        -- both keys are below the only child, so it is not a leaf
        have child := children nibble'
        cases trie : subtries nibble' with
        | empty => exact (present secondNext trie).elim
        | leaf tag key value =>
          rw [trie] at child
          cases child with
          | leaf _ _ only =>
            exact (different ((only first firstNext).trans (only second secondNext).symm)).elim
        | node tag grandchildren =>
          rw [childrenOf, trie, toNode_node]
          simp only [Node.asChild, nodeType]
          split <;> rfl
      · rfl
    simp [newMigration, newImpl, Fallible.ensure, notEmpty, notOnlyLeaf, Fallible.unwrap]

end Logical

end Diem
