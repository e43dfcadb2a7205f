import Diem.NibbleSlices
import Diem.TreeCacheSpec

namespace Diem

open AccountKey (getNibble_eq uniform_nibbles)
open TreeCache AccountKey List

/-!
# Batch insertion updates the trie

Inserting keys in a batch turns the nodes of a trie into the nodes of the updated
trie.  The hashes of new nodes may be supplied from outside.
-/

open KeyValues (SortedBelow Splits)
open CompressedTrie JellyfishTrie

variable {Value : Type}

namespace KeyValues

/-- The map with the given keys. -/
def items (kvs : KeyValues Value) : AccountKey → Option Value :=
  fun key => OrderedMap.lookupEntry key kvs

variable {front : NibblePath} {kvs : KeyValues Value} {key : AccountKey}

theorem items_eq_some (below : SortedBelow front kvs) {value : Value} :
    kvs.items key = some value ↔ (key, value) ∈ kvs :=
  OrderedMap.lookupEntry_eq_some_iff below.sorted

theorem items_filter (kvs : KeyValues Value) (keep : AccountKey × Value → Bool)
    (kept : ∀ value, keep (key, value) = true) : items (kvs.filter keep) key = kvs.items key := by
  induction kvs with
  | nil => rfl
  | cons kv kvs ih =>
    simp only [items] at ih ⊢
    by_cases same : kv.1 = key
    · have keeps : keep kv = true := by
        rw [← same] at kept
        exact kept kv.2
      simp [keeps, OrderedMap.lookupEntry, same]
    · by_cases keeps : keep kv = true
      · simp [keeps, OrderedMap.lookupEntry, same, ih]
      · simp [keeps, OrderedMap.lookupEntry, same, ih]

theorem items_singleton (key : AccountKey) (value : Value) :
    items [(key, value)] = single key value := by
  funext query
  simp [items, OrderedMap.lookupEntry, single, eq_comm]

theorem SortedBelow.below (below : SortedBelow front kvs) {kv : AccountKey × Value}
    (member : kv ∈ kvs) : Below nibbles kvs.items front kv.1 :=
  ⟨below.starts kv member, kv.2, (items_eq_some below).mpr member⟩

/-- The part of a nibble is below the child of the nibble. -/
theorem SortedBelow.slice (below : SortedBelow front kvs) (short : front.length < rootNibbleHeight)
    {slice : KeyValues Value} {nibble : Nibble}
    (shape : slice = kvs.filter fun kv => kv.1.getNibble front.length = nibble) :
    SortedBelow (front ++ [nibble]) slice := by
  constructor
  · rw [shape]
    exact below.sorted.sublist (filter_sublist.map Prod.fst)
  · intro kv member
    rw [shape, mem_filter] at member
    have next := starts_getNibble (below.starts kv member.1) short
    rwa [of_decide_eq_true member.2] at next

/-- Different keys of a list with more than one. -/
theorem SortedBelow.exists_two (below : SortedBelow front kvs) (more : ∀ kv, kvs ≠ [kv])
    (present : kvs ≠ []) :
    ∃ first second, Below nibbles kvs.items front first ∧ Below nibbles kvs.items front second ∧
      first ≠ second := by
  match shape : kvs with
  | [] => exact (present rfl).elim
  | [kv] => exact (more kv rfl).elim
  | first :: second :: rest =>
    refine ⟨first.1, second.1, below.below (by simp), below.below (by simp), ?_⟩
    have sorted := below.sorted
    simp only [map_cons, pairwise_cons] at sorted
    exact (sorted.1 second.1 (by simp)).ne

end KeyValues

namespace JellyfishMerkleTree

/-- Whether the nodes count the leaves below them. -/
abbrev counts (tree : JellyfishMerkleTree Value) : Bool :=
  tree.leafCountMigration

variable {hasher : StateHasher Value} {counts : Bool}
  {tree : JellyfishMerkleTree Value} {base : TreeCache Value} {version : Nat}
  {hashCache : Option (OrderedMap NibblePath HashValue)} {cache : TreeCache Value}
  {old nodes : NodeMap Value} {front : NibblePath} {trie : JellyfishTrie Value}

variable (hasher counts hashCache) in
/--
The given hashes are those of the new nodes on the way to changed keys below a path.
-/
def Supplies (changes : AccountKey → Option Value) (front : NibblePath)
    (trie : JellyfishTrie Value) : Prop :=
  ∀ hashes, hashCache = some hashes →
    ∀ nibble rest, (∃ key, Below nibbles changes (front ++ nibble :: rest) key) →
      trie.find (nibble :: rest) ≠ .empty →
      hashes.get? (front ++ nibble :: rest) =
        some ((toNode hasher counts (trie.find (nibble :: rest))).hash hasher)

theorem Supplies.child {changes changes' : AccountKey → Option Value}
    (supplies : Supplies hasher counts hashCache changes front trie) (nibble : Nibble)
    (same : ∀ key, front ++ [nibble] <+: key.nibbles → changes' key = changes key) :
    Supplies hasher counts hashCache changes' (front ++ [nibble]) (trie.subtrees nibble) := by
  intro hashes given next rest touched present
  obtain ⟨key, starts, value, stored⟩ := touched
  have inside : front ++ [nibble] <+: key.nibbles := (prefix_append _ _).trans starts
  rw [← find_cons] at present ⊢
  rw [append_assoc, singleton_append] at starts ⊢
  refine supplies hashes given nibble (next :: rest) ?_ present
  exact ⟨key, starts, value, by rw [← same key inside, stored]⟩

variable {key : AccountKey}

theorem Supplies.getHash {changes : AccountKey → Option Value}
    (supplies : Supplies hasher counts hashCache changes front trie) {nibble : Nibble}
    (touched : Below nibbles changes (front ++ [nibble]) key)
    (present : trie.subtrees nibble ≠ .empty) (version : Nat) :
    JellyfishMerkleTree.getHash hasher ⟨version, front ++ [nibble]⟩
        (toNode hasher counts (trie.subtrees nibble)) hashCache =
      .ok ((toNode hasher counts (trie.subtrees nibble)).hash hasher) := by
  cases hashCache with
  | none => rfl
  | some hashes =>
    have atChild : trie.find [nibble] = trie.subtrees nibble := by rw [find_cons, find_nil]
    have given := supplies hashes rfl nibble [] ⟨key, touched⟩ (by rwa [atChild])
    rw [JellyfishMerkleTree.getHash, given, atChild]
    rfl

variable (hasher counts base version old nodes front trie) in
/-- An insertion returns the top node of a trie and grafts the trie. -/
def Grafts (result : Fallible (Inserted Value)) : Prop :=
  ∃ cache, result = .ok ((⟨version, front⟩, toNode hasher counts trie), cache) ∧
    Shows base cache version old (graft hasher counts nodes front trie)

variable {subtries : Nibble → JellyfishTrie Value}

/-- Putting the top node of a trie whose subtrees are there. -/
theorem putInternalNode_spec {items : AccountKey → Option Value}
    (represents : Represents nibbles items front (.node version subtries))
    (shows : Shows base cache version old (opened hasher tree.counts nodes front subtries)) :
    Grafts hasher tree.counts base version old nodes front (.node version subtries)
      (tree.putInternalNode ⟨version, front⟩ (childrenOf hasher tree.counts subtries) cache) := by
  have put := newMigration_eq hasher tree.counts represents
  obtain ⟨cache', added, shows'⟩ := shows.putNode rfl (opened_self subtries version)
    (toNode hasher tree.counts (.node version subtries))
  refine ⟨cache', ?_, ?_⟩
  · rw [toNode_node] at added
    rw [putInternalNode, put, Fallible.ok_bind, added]
    rfl
  · have present : (.node version subtries : JellyfishTrie Value) ≠ .empty := by simp
    rw [← opened_put present]
    exact shows'

section

variable (shows :
    Shows base cache version old (graft hasher counts nodes front .empty))
include shows

/-- Adding a leaf where there is nothing. -/
theorem putNode_leaf (key : AccountKey) (value : Value) :
    ∃ cache', cache.putNode ⟨version, front⟩ (.leaf (.new hasher key value)) = .ok cache' ∧
      Shows base cache' version old
        (graft hasher counts nodes front (.leaf version key value)) := by
  have absent : graft hasher counts nodes front .empty ⟨version, front⟩ = none := by
    rw [graft_self, entry_empty]
  obtain ⟨cache', added, shows'⟩ := shows.putNode rfl absent _
  rw [graft_empty_put] at shows'
  exact ⟨cache', added, shows'⟩

theorem putLeafNode_spec (key : AccountKey) (value : Value) :
    Grafts hasher counts base version old nodes front (.leaf version key value)
      (putLeafNode hasher ⟨version, front⟩ key value cache) := by
  obtain ⟨cache', added, shows'⟩ := putNode_leaf shows key value
  refine ⟨cache', ?_, shows'⟩
  rw [putLeafNode, added]
  rfl

end

variable (hasher counts base version old nodes front) in
/-- Inserting at a child grafts its new trie, whatever the other children are. -/
def GraftsChild (subtries final : Nibble → JellyfishTrie Value) (nibble : Nibble)
    (insert : TreeCache Value → Fallible (Inserted Value)) : Prop :=
  ∀ cache others, others nibble = subtries nibble →
    Shows base cache version old (opened hasher counts nodes front others) →
    Grafts hasher counts base version old
      (opened hasher counts nodes front others) (front ++ [nibble])
      (final nibble) (insert cache)

variable (hasher counts version hashCache front) in
/-- The new trie of a child has the version of the update and a known hash. -/
def FreshChild (final : Nibble → JellyfishTrie Value) (nibble : Nibble) : Prop :=
  final nibble ≠ .empty ∧ rootVersion (final nibble) = version ∧
    getHash hasher ⟨version, front ++ [nibble]⟩ (toNode hasher counts (final nibble)) hashCache =
      .ok ((toNode hasher counts (final nibble)).hash hasher)

variable {slices : List (KeyValues Value)}

/-- Building the children of the parts of a list one after the other. -/
theorem insertChildren_spec {depth : Nat}
    {insertChild : Nibble → KeyValues Value → TreeCache Value → Fallible (Inserted Value)}
    {final : Nibble → JellyfishTrie Value}
    (nodup : (slices.map fun slice => slice.firstNibble depth).Nodup)
    (inserts :
      ∀ slice ∈ slices, GraftsChild hasher counts base version old nodes front subtries final
        (slice.firstNibble depth) (insertChild (slice.firstNibble depth) slice))
    (fresh : ∀ slice ∈ slices,
      FreshChild hasher counts version hashCache front final (slice.firstNibble depth))
    (shows : Shows base cache version old (opened hasher counts nodes front subtries)) :
    ∃ cache', insertChildren hasher version depth hashCache insertChild slices
        (childrenOf hasher counts subtries) cache =
      .ok (childrenOf hasher counts fun nibble =>
        if nibble ∈ slices.map fun slice => slice.firstNibble depth then
          final nibble
        else
          subtries nibble, cache') ∧
      Shows base cache' version old
        (opened hasher counts nodes front fun nibble =>
          if nibble ∈ slices.map fun slice => slice.firstNibble depth then
            final nibble
          else
            subtries nibble) := by
  induction slices generalizing subtries cache with
  | nil => exact ⟨cache, by simp [insertChildren], by simpa using shows⟩
  | cons slice slices ih =>
    rw [map_cons, nodup_cons] at nodup
    obtain ⟨cache₁, inserted, shows₁⟩ := inserts slice mem_cons_self cache subtries rfl shows
    obtain ⟨present, created, hash⟩ := fresh slice mem_cons_self
    obtain ⟨nodeType, type, -⟩ := childrenOf_eq_some hasher counts present
    rw [opened_graft] at shows₁
    have recorded : (childrenOf hasher counts subtries).insert (slice.firstNibble depth)
            ⟨_, rootVersion (final (slice.firstNibble depth)), nodeType⟩ =
          childrenOf hasher counts
            (Function.update subtries (slice.firstNibble depth)
              (final (slice.firstNibble depth))) :=
      childrenOf_insert type
    rw [created] at recorded
    have different : ∀ other ∈ slices, other.firstNibble depth ≠ slice.firstNibble depth := by
      intro other member equal
      exact nodup.1 (mem_map.mpr ⟨other, member, equal⟩)
    obtain ⟨cache₂, rest, shows₂⟩ := ih nodup.2
      (fun other member cache others agrees =>
        inserts other (mem_cons_of_mem _ member) cache others
          (by rwa [Function.update_of_ne (different other member)] at agrees))
      (fun other member => fresh other (mem_cons_of_mem _ member))
      shows₁
    have same : (fun nibble =>
          if nibble ∈ slices.map fun slice => slice.firstNibble depth
          then final nibble
          else
            Function.update subtries (slice.firstNibble depth)
              (final (slice.firstNibble depth)) nibble) =
        (fun nibble =>
          if nibble ∈ (slice :: slices).map fun slice => slice.firstNibble depth
          then final nibble
          else subtries nibble) := by
      funext nibble
      by_cases here : nibble = slice.firstNibble depth
      · subst here
        simp
      · simp [here]
    rw [same] at rest shows₂
    refine ⟨cache₂, ?_, shows₂⟩
    rw [insertChildren, inserted, Fallible.ok_bind]
    simp only [hash, type, Fallible.ok_bind, recorded]
    exact rest

variable {kvs : KeyValues Value}

/-- The parts are those of the children that have a key. -/
theorem mem_slices_iff (below : SortedBelow front kvs)
    (short : front.length < rootNibbleHeight) (splits : Splits front.length kvs slices)
    {nibble : Nibble} :
    (nibble ∈ slices.map fun slice => slice.firstNibble front.length) ↔
      ∃ key, Below nibbles kvs.items (front ++ [nibble]) key := by
  constructor
  · intro member
    obtain ⟨slice, inside, rfl⟩ := mem_map.mp member
    obtain ⟨nonempty, shape⟩ := splits.slice slice inside
    obtain ⟨kv, inSlice⟩ := exists_mem_of_ne_nil slice nonempty
    have inKvs := inSlice
    rw [shape, mem_filter] at inKvs
    have starts := (below.slice short shape).starts kv inSlice
    exact ⟨kv.1, starts, (below.below inKvs.1).2⟩
  · rintro ⟨key, starts, value, stored⟩
    have member := (KeyValues.items_eq_some below).mp stored
    have covered := splits.covers _ member
    rwa [getNibble_eq starts] at covered

/-- Building the children on the way to some keys. -/
theorem insertSlices_spec
    (insertChild : Nibble → KeyValues Value → TreeCache Value → Fallible (Inserted Value))
    (final : Nibble → JellyfishTrie Value) (below : SortedBelow front kvs)
    (short : front.length < rootNibbleHeight) (splits : Splits front.length kvs slices)
    (inserts : ∀ slice nibble, SortedBelow (front ++ [nibble]) slice → slice ≠ [] →
      (∀ key, front ++ [nibble] <+: key.nibbles → slice.items key = kvs.items key) →
      GraftsChild hasher counts base version old nodes front subtries final
        nibble (insertChild nibble slice))
    (fresh : ∀ nibble key, Below nibbles kvs.items (front ++ [nibble]) key →
      FreshChild hasher counts version hashCache front final nibble)
    (unchanged : ∀ nibble, (∀ key, ¬ Below nibbles kvs.items (front ++ [nibble]) key) →
      final nibble = subtries nibble)
    (shows : Shows base cache version old (opened hasher counts nodes front subtries)) :
    ∃ cache', insertChildren hasher version front.length hashCache insertChild slices
        (childrenOf hasher counts subtries) cache =
      .ok (childrenOf hasher counts final, cache') ∧
      Shows base cache' version old (opened hasher counts nodes front final) := by
  have eachInserts : ∀ slice ∈ slices,
        GraftsChild hasher counts base version old nodes front subtries final
          (slice.firstNibble front.length)
          (insertChild (slice.firstNibble front.length) slice) := by
    intro slice member
    obtain ⟨nonempty, shape⟩ := splits.slice slice member
    refine inserts slice _ (below.slice short shape) nonempty fun key starts => ?_
    rw [shape]
    exact KeyValues.items_filter kvs _ fun value => by simpa using getNibble_eq starts
  have eachFresh : ∀ slice ∈ slices, FreshChild hasher counts version hashCache front final
    (slice.firstNibble front.length) := by
    intro slice member
    have inMap :
        slice.firstNibble front.length ∈ slices.map fun slice => slice.firstNibble front.length :=
      mem_map.mpr ⟨slice, member, rfl⟩
    obtain ⟨key, atChild⟩ := (mem_slices_iff below short splits).mp inMap
    exact fresh _ key atChild
  obtain ⟨cache', inserted, shows'⟩ := insertChildren_spec splits.nodup eachInserts eachFresh shows
  have same : (fun nibble =>
        if nibble ∈ slices.map fun slice => slice.firstNibble front.length
        then final nibble
        else subtries nibble) = final := by
    funext nibble
    split
    · rfl
    · rename_i notSplit
      refine (unchanged nibble fun key atChild => notSplit ?_).symm
      exact (mem_slices_iff below short splits).mpr ⟨key, atChild⟩
  rw [same] at inserted shows'
  exact ⟨cache', inserted, shows'⟩

variable {height : Nat}

theorem depthAt_eq (lengths : front.length + height = rootNibbleHeight) :
    depthAt height = front.length := by
  rw [depthAt]
  omega

variable {items : AccountKey → Option Value}

theorem present_of_below (represents : Represents nibbles items front trie)
    (below : Below nibbles items front key) : trie ≠ .empty := by
  rintro rfl
  cases represents with
  | empty none => exact none key below

theorem build_present (below : Below nibbles items front key) (version : Nat) :
    build uniform_nibbles version items front ≠ .empty :=
  present_of_below (build_represents uniform_nibbles version items front) below

theorem build_rootVersion (below : Below nibbles items front key) :
    rootVersion (build uniform_nibbles version items front) = version := by
  have present := build_present below version
  rw [build] at present ⊢
  cases shape : (exists_represents uniform_nibbles items () front).choose with
  | empty =>
    rw [shape] at present
    exact (present rfl).elim
  | leaf => rfl
  | node => rfl

theorem build_single {value : Value} (below : SortedBelow front [(key, value)]) :
    build uniform_nibbles version (KeyValues.items [(key, value)]) front =
      .leaf version key value := by
  rw [KeyValues.items_singleton]
  exact updated_empty_single _ _ (below.starts _ mem_cons_self)

/-- Creating the subtree of some keys where there is nothing. -/
theorem batchCreateSubtree_spec (lengths : front.length + height = rootNibbleHeight)
    (below : SortedBelow front kvs) (nonempty : kvs ≠ [])
    (supplies : Supplies hasher tree.counts hashCache kvs.items front
      (build uniform_nibbles version kvs.items front))
    (shows : Shows base cache version old (graft hasher tree.counts nodes front .empty)) :
    Grafts hasher tree.counts base version old nodes front
      (build uniform_nibbles version kvs.items front)
      (tree.batchCreateSubtree hasher version hashCache height ⟨version, front⟩ kvs cache) := by
  induction height using Nat.strong_induction_on generalizing front kvs cache nodes with
  | _ height ih =>
    by_cases one : ∃ kv, kvs = [kv]
    · obtain ⟨⟨key, value⟩, rfl⟩ := one
      rw [build_single below]
      cases height <;> exact putLeafNode_spec shows key value
    · obtain ⟨first, second, firstBelow, secondBelow, different⟩ :=
        below.exists_two (fun kv shape => one ⟨kv, shape⟩) nonempty
      have short := uniform_nibbles.front_length_lt firstBelow.1 secondBelow.1 different
      obtain ⟨height, rfl⟩ := Nat.exists_eq_add_one.mpr (by omega : 0 < height)
      obtain ⟨slices, split, splits⟩ := KeyValues.nibbleSlices_spec below short
      have shape := build_node uniform_nibbles version firstBelow secondBelow different
      have represents := build_represents uniform_nibbles version kvs.items front
      rw [shape] at represents supplies
      rw [graft_empty] at shows
      obtain ⟨cache₁, inserted, shows₁⟩ :=
        insertSlices_spec
          (fun nibble slice cache =>
            tree.batchCreateSubtree hasher version hashCache height
              ⟨version, front ++ [nibble]⟩ slice cache)
          (fun nibble => build uniform_nibbles version kvs.items (front ++ [nibble]))
          below short splits
          (by
            intro slice nibble sliceBelow nonempty same cache others absent shows
            have target := build_congr uniform_nibbles version same
            beta_reduce
            rw [← target]
            refine ih height (by omega) ?_ sliceBelow nonempty ?_ ?_
            · rw [length_append, length_singleton]
              omega
            · rw [target]
              exact supplies.child nibble same
            · rw [← opened_eq_graft _ absent]
              exact shows)
          (fun nibble key atChild =>
            have present := build_present atChild version
            ⟨present, build_rootVersion atChild, supplies.getHash atChild present version⟩)
          (fun nibble none => build_empty _ _ none) shows
      rw [shape, batchCreateSubtree, depthAt_eq lengths, split, Fallible.ok_bind]
      rw [childrenOf_empty] at inserted
      simp only [NodeKey.genChildNodeKey]
      rw [inserted, Fallible.ok_bind]
      · exact putInternalNode_spec represents shows₁
      · exact fun key value shape => one ⟨(key, value), shape⟩

end JellyfishMerkleTree

end Diem
