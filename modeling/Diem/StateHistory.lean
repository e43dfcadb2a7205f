import Diem.JellyfishVersions

namespace Diem

open List

/-!
# The history of the state tree

The nodes in storage are those of the trees of all versions.  A node is stored under
the version that created it and stays in the tree until it is stale; it never comes
back.  Pruning removes the nodes that are stale since some version.
-/

open CompressedTrie JellyfishTrie

variable {Value : Type} {hasher : StateHasher Value}
  {counts : Bool} {tries : List (JellyfishTrie Value)} {trie : JellyfishTrie Value}
  {key : NodeKey} {node : Node Value} {version : Nat}

/-- The nodes and the indices of stale nodes in storage. -/
structure StateStore (Value : Type) where
  nodes : TreeReader Value
  staleNodeIndices : Finset StaleNodeIndex

namespace StateStore

/-- Nothing is stored. -/
def empty : StateStore Value where
  nodes := fun _ => none
  staleNodeIndices := ∅

def write (store : StateStore Value) (batch : TreeUpdateBatch Value) : StateStore Value where
  nodes key := (batch.nodeBatch.get? key).or (store.nodes key)
  staleNodeIndices := store.staleNodeIndices ∪ batch.staleNodeIndexBatch

end StateStore

section History

variable (hasher counts tries)

/-- The node that a version created. -/
def historyNode (key : NodeKey) : Option (Node Value) :=
  tries[key.version]?.bind fun trie => nodesOf hasher counts trie key

/-- The tree of a version has lost the node. -/
def StaleSince (version : Nat) (key : NodeKey) : Prop :=
  ∃ earlier trie trie',
    version = earlier + 1 ∧ tries[earlier]? = some trie ∧ tries[version]? = some trie' ∧
      (nodesOf hasher counts trie key).isSome = true ∧
      nodesOf hasher counts trie' key = none

/-- The trees of consecutive versions, each made from the one before. -/
structure Evolves : Prop where
  created :
    ∀ {version trie}, tries[version]? = some trie → trie ≠ .empty ∧ rootVersion trie = version
  first : ∀ {trie key node}, tries[0]? = some trie → nodesOf hasher counts trie key = some node →
    key.version = 0
  kept : ∀ {version trie trie' key node}, tries[version]? = some trie →
    tries[version + 1]? = some trie' →
    key.version ≠ version + 1 →
    nodesOf hasher counts trie' key = some node →
    nodesOf hasher counts trie key = some node

end History

namespace Evolves

variable {trie' : JellyfishTrie Value} {later : Nat}

theorem earlier (found : tries[later]? = some trie) (order : version ≤ later) :
    ∃ trie', tries[version]? = some trie' := by
  have bound := (List.getElem?_eq_some_iff.mp found).1
  exact ⟨_, List.getElem?_eq_getElem (by omega)⟩

section

variable (evolves : Evolves hasher counts tries)
include evolves

/-- A tree has no nodes of later versions. -/
theorem older (found : tries[version]? = some trie)
    (has : nodesOf hasher counts trie key = some node) : key.version ≤ version := by
  induction version generalizing trie with
  | zero => exact (evolves.first found has).le
  | succ version ih =>
    by_cases fresh : key.version = version + 1
    · omega
    · obtain ⟨before, beforeFound⟩ := earlier found (Nat.le_succ version)
      have bound := ih beforeFound (evolves.kept beforeFound found fresh has)
      omega

section

variable (order : version ≤ later)
include order

/-- A node of a tree was in all trees since it was created. -/
theorem persists (since : key.version ≤ version) (found : tries[version]? = some trie)
    (found' : tries[later]? = some trie') (has : nodesOf hasher counts trie' key = some node) :
    nodesOf hasher counts trie key = some node := by
  induction order generalizing trie' with
  | refl =>
    rw [found] at found'
    cases found'
    exact has
  | @step later order ih =>
    obtain ⟨before, beforeFound⟩ := earlier found' (Nat.le_succ later)
    refine ih beforeFound (evolves.kept beforeFound found' ?_ has)
    have bound : version ≤ later := order
    omega

/-- A node of a tree is not stale yet. -/
theorem not_staleSince (found : tries[later]? = some trie)
    (has : nodesOf hasher counts trie key = some node) :
    ¬ StaleSince hasher counts tries version key := by
  rintro ⟨before, trie₁, trie₂, rfl, found₁, found₂, had, gone⟩
  obtain ⟨node', had⟩ := Option.isSome_iff_exists.mp had
  have since := evolves.older found₁ had
  have still := evolves.persists order (by omega) found₂ found has
  rw [gone] at still
  cases still

/-- A node that does not get stale stays. -/
theorem stays (found : tries[version]? = some trie) (found' : tries[later]? = some trie')
    (has : nodesOf hasher counts trie key = some node)
    (fresh : ∀ between ≤ later, ¬ StaleSince hasher counts tries between key) :
    nodesOf hasher counts trie' key = some node := by
  induction order generalizing trie' with
  | refl =>
    rw [found] at found'
    cases found'
    exact has
  | @step later order ih =>
    obtain ⟨before, beforeFound⟩ := earlier found' (Nat.le_succ later)
    have had := ih beforeFound fun between bound => fresh between (Nat.le_succ_of_le bound)
    cases now : nodesOf hasher counts trie' key with
    | none =>
      exact (fresh (later + 1) le_rfl
        ⟨later, before, trie', rfl, beforeFound, found', by rw [had]; rfl, now⟩).elim
    | some node' =>
      have since := evolves.older found has
      have bound : version ≤ later := order
      have same := evolves.kept beforeFound found' (by omega) now
      rw [had] at same
      exact same.symm

end

theorem historyNode_eq (found : tries[version]? = some trie)
    (has : nodesOf hasher counts trie key = some node) :
    historyNode hasher counts tries key = some node := by
  have since := evolves.older found has
  obtain ⟨creator, creatorFound⟩ := earlier found since
  rw [historyNode, creatorFound, Option.bind_some]
  exact evolves.persists since le_rfl creatorFound found has

end

end Evolves

variable {subtries : Nibble → JellyfishTrie Value}

/-- A child that a node records is the top node of a subtree. -/
theorem childrenOf_some {nibble : Nibble} {child : Child}
    (found : childrenOf hasher counts subtries nibble = some child) :
    subtries nibble ≠ .empty ∧ child.version = rootVersion (subtries nibble) ∧
      child.hash = (toNode hasher counts (subtries nibble)).hash hasher ∧
      child.isLeaf = (toNode hasher counts (subtries nibble)).isLeaf := by
  rw [childrenOf] at found
  cases shape : subtries nibble with
  | empty =>
    rw [shape] at found
    cases found
  | leaf version key value =>
    rw [shape] at found
    cases found
    exact ⟨by simp, rfl, rfl, rfl⟩
  | node version children =>
    rw [shape] at found
    cases found
    refine ⟨by simp, rfl, rfl, ?_⟩
    rw [InternalNode.nodeType]
    split <;> rfl

/-- All nodes of a tree below a path are stored. -/
def TreeReader.Contains (hasher : StateHasher Value) (counts : Bool)
    (reader : TreeReader Value) (front : NibblePath)
    (trie : JellyfishTrie Value) : Prop :=
  ∀ version nibbles node, entry hasher counts (trie.find nibbles) version = some node →
    reader ⟨version, front ++ nibbles⟩ = some node

namespace TreeReader

variable {reader : TreeReader Value} {front : NibblePath}

theorem Contains.top (contains : reader.Contains hasher counts front trie)
    (present : trie ≠ .empty) :
    reader ⟨rootVersion trie, front⟩ = some (toNode hasher counts trie) := by
  rw [← append_nil front]
  refine contains _ _ _ ?_
  rw [find_nil, entry_of_ne_empty present, if_pos rfl]

theorem Contains.child {version : Nat}
    (contains : reader.Contains hasher counts front (.node version subtries)) (nibble : Nibble) :
    reader.Contains hasher counts (front ++ [nibble]) (subtries nibble) := by
  intro version' nibbles node found
  rw [append_assoc, singleton_append]
  refine contains version' (nibble :: nibbles) node ?_
  exact found

theorem contains_of_nodes
    (stored : ∀ key node, nodesOf hasher counts trie key = some node → reader key = some node) :
    reader.Contains hasher counts [] trie := by
  intro version nibbles node found
  refine stored _ _ ?_
  exact found

/-- A tree whose nodes are stored can be read. -/
theorem Contains.holdsBelow {items : AccountKey → Option Value}
    (contains : reader.Contains hasher counts front trie)
    (represents : Represents AccountKey.nibbles items front trie) (present : trie ≠ .empty) :
    HoldsBelow hasher reader items front (toNode hasher counts trie) := by
  induction represents with
  | empty none => exact (present rfl).elim
  | leaf starts stored only => exact .leaf starts stored only
  | @node front version subtries first second firstBelow secondBelow different children ih =>
      have absent : ∀ nibble, childrenOf hasher counts subtries nibble = none →
            ∀ key, ¬ Below AccountKey.nibbles items (front ++ [nibble]) key := by
        intro nibble nothing key below
        have child := children nibble
        by_cases childAbsent : subtries nibble = .empty
        · rw [childAbsent] at child
          cases child with
          | empty none => exact none key below
        · obtain ⟨nodeType, -, found⟩ := childrenOf_eq_some hasher counts childAbsent
          cases found.symm.trans nothing
      have linked : ∀ nibble child, childrenOf hasher counts subtries nibble = some child →
            reader ⟨child.version, front ++ [nibble]⟩ =
                some (toNode hasher counts (subtries nibble)) ∧
              child.hash = (toNode hasher counts (subtries nibble)).hash hasher ∧
              child.isLeaf = (toNode hasher counts (subtries nibble)).isLeaf := by
        intro nibble child found
        obtain ⟨childPresent, version, recorded⟩ := childrenOf_some found
        rw [version]
        exact ⟨(contains.child nibble).top childPresent, recorded⟩
      exact .internal firstBelow secondBelow different absent linked
        fun nibble child found => ih nibble (contains.child nibble) (childrenOf_some found).1

end TreeReader

/-- The latest of some trees. -/
def latest (tries : List (JellyfishTrie Value)) : JellyfishTrie Value :=
  tries.getLast?.getD .empty

theorem latest_of_length (found : tries[version]? = some trie) (last : version + 1 = tries.length) :
    latest tries = trie := by
  rw [latest, getLast?_eq_getElem?, show tries.length - 1 = version by omega, found]
  rfl

@[simp] theorem latest_nil : latest ([] : List (JellyfishTrie Value)) = .empty := rfl

@[simp] theorem latest_concat : latest (tries ++ [trie]) = trie := by
  simp [latest]

theorem historyNode_concat_old (old : key.version ≠ tries.length) :
    historyNode hasher counts (tries ++ [trie]) key =
      historyNode hasher counts tries key := by
  rw [historyNode, historyNode]
  congr 1
  ext other
  rw [getElem?_concat_iff]
  simp [old]

/-- What gets stale when a tree is added. -/
theorem staleSince_concat_iff :
    StaleSince hasher counts (tries ++ [trie]) version key ↔
      StaleSince hasher counts tries version key ∨
        version = tries.length ∧ (nodesOf hasher counts (latest tries) key).isSome = true ∧
          nodesOf hasher counts trie key = none := by
  constructor
  · rintro ⟨before, trie₁, trie₂, next, found₁, found₂, had, gone⟩
    have bound := (List.getElem?_eq_some_iff.mp found₂).1
    rw [length_append, length_singleton] at bound
    rw [getElem?_append_left (by omega)] at found₁
    rcases getElem?_concat_iff.mp found₂ with found | ⟨last, rfl⟩
    · exact .inl ⟨before, trie₁, trie₂, next, found₁, found, had, gone⟩
    · right
      rw [latest_of_length found₁ (next.symm.trans last)]
      exact ⟨last, had, gone⟩
  · rintro (⟨before, trie₁, trie₂, next, found₁, found₂, had, gone⟩ | ⟨last, had, gone⟩)
    · exact ⟨before, trie₁, trie₂, next, getElem?_concat_iff.mpr (.inl found₁),
        getElem?_concat_iff.mpr (.inl found₂), had, gone⟩
    · rcases eq_nil_or_concat tries with rfl | ⟨rest, before, rfl⟩
      · rw [latest_nil, nodesOf_empty] at had
        cases had
      · rw [concat_eq_append] at *
        rw [latest_concat] at had
        refine ⟨rest.length, before, trie, by simp [last], ?_, ?_, had, gone⟩
        · rw [getElem?_concat_iff, getElem?_concat_iff]
          exact .inl (.inr ⟨rfl, rfl⟩)
        · rw [getElem?_concat_iff]
          exact .inr ⟨last, rfl⟩

/-- Adding a tree that was made from the latest one. -/
theorem Evolves.concat (evolves : Evolves hasher counts tries) (present : trie ≠ .empty)
    (created : rootVersion trie = tries.length)
    (kept :
      ∀ {key node}, key.version ≠ tries.length → nodesOf hasher counts trie key = some node →
        nodesOf hasher counts (latest tries) key = some node) :
    Evolves hasher counts (tries ++ [trie]) where
  created := by
    intro version other found
    rcases getElem?_concat_iff.mp found with found | ⟨rfl, rfl⟩
    · exact evolves.created found
    · exact ⟨present, created⟩
  first := by
    intro other key node found has
    rcases getElem?_concat_iff.mp found with found | ⟨first, rfl⟩
    · exact evolves.first found has
    · by_contra later
      rw [length_eq_zero_iff.mp first.symm] at kept
      have impossible := kept later has
      rw [latest_nil, nodesOf_empty] at impossible
      cases impossible
  kept := by
    intro version trie₁ trie₂ key node found₁ found₂ old has
    have bound := (List.getElem?_eq_some_iff.mp found₂).1
    rw [length_append, length_singleton] at bound
    rw [getElem?_append_left (by omega)] at found₁
    rcases getElem?_concat_iff.mp found₂ with found | ⟨last, rfl⟩
    · exact evolves.kept found₁ found old has
    · rw [← latest_of_length found₁ last]
      exact kept (by omega) has

/-- The last write of a key up to a version. -/
def stateAt (valueSets : List (KeyValues Value)) (version : Nat) : AccountKey → Option Value :=
  KeyValues.lastOf (valueSets.take (version + 1)).flatten

/--
Storage after some versions, without the nodes that were stale since one up to the least
readable version, and without the index entries up to the purged one.
-/
structure Committed (hasher : StateHasher Value) (counts : Bool)
    (purged least : Nat) (store : StateStore Value) (valueSets : List (KeyValues Value))
    (tries : List (JellyfishTrie Value)) : Prop where
  length : tries.length = valueSets.length
  evolves : Evolves hasher counts tries
  represents : ∀ {version trie}, tries[version]? = some trie →
    Represents AccountKey.nibbles (stateAt valueSets version) [] trie
  readable : least = 0 ∨ least < tries.length
  pruned : purged ≤ least
  nodes : ∀ {key node}, store.nodes key = some node ↔
    historyNode hasher counts tries key = some node ∧
      ∀ version ≤ least, ¬ StaleSince hasher counts tries version key
  stale : ∀ index, index ∈ store.staleNodeIndices ↔ purged < index.staleSinceVersion ∧
    StaleSince hasher counts tries index.staleSinceVersion index.nodeKey

namespace Committed

variable {purged least : Nat} {store : StateStore Value} {valueSets : List (KeyValues Value)}

variable (hasher counts) in
theorem empty : Committed hasher counts 0 0 (.empty : StateStore Value) [] [] where
  length := rfl
  evolves := ⟨nofun, nofun, nofun⟩
  represents := nofun
  readable := .inl rfl
  pruned := le_rfl
  nodes := by
    intro key node
    constructor
    · nofun
    · nofun
  stale := by
    intro index
    constructor
    · nofun
    · rintro ⟨-, before, trie, trie', next, impossible, rest⟩
      cases impossible

section

variable (committed : Committed hasher counts purged least store valueSets tries)
include committed

/-- Whatever the latest tree has can still get stale. -/
theorem least_lt (had : (nodesOf hasher counts (latest tries) key).isSome = true) :
    least < tries.length := by
  rcases committed.readable with rfl | bound
  · refine length_pos_iff.mpr fun nothing => ?_
    rw [nothing, latest_nil, nodesOf_empty] at had
    cases had
  · exact bound

variable (recent : least ≤ version)
include recent

/-- The nodes of a readable version are stored. -/
theorem stored (found : tries[version]? = some trie)
    (has : nodesOf hasher counts trie key = some node) : store.nodes key = some node :=
  committed.nodes.mpr
    ⟨committed.evolves.historyNode_eq found has,
      fun _ bound => committed.evolves.not_staleSince (bound.trans recent) found has⟩

/-- A readable version holds the last writes up to it. -/
theorem holds (bound : version < valueSets.length) :
    store.nodes.Holds hasher version (stateAt valueSets version) := by
  rw [← committed.length] at bound
  have found := getElem?_eq_getElem bound
  obtain ⟨present, created⟩ := committed.evolves.created found
  have contains : store.nodes.Contains hasher counts [] tries[version] :=
    TreeReader.contains_of_nodes fun key node has => committed.stored recent found has
  refine .inr ⟨toNode hasher counts tries[version], ?_,
    contains.holdsBelow (committed.represents found) present⟩
  have top := contains.top present
  rwa [created] at top

end

end Committed

end Diem
