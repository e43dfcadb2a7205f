import Diem.StateCommits
import Mathlib.Data.Finset.Sort
import Mathlib.Data.List.TakeWhile

namespace Diem

open List StaleNodeIndex TreeReader
open NodeKey (newEmptyPath)

/-!
# Pruning the state tree

The pruner goes over the indices of stale nodes in the order of the versions since
which they are stale, takes whole versions up to a target and deletes their nodes
(`storage/diemdb/src/pruner/mod.rs`).  From time to time it also deletes the indices
themselves.  After a restart it begins anew at the first index that is left.  A history
mixes commits, rounds of pruning and restarts.
-/

open CompressedTrie JellyfishTrie

variable {Value : Type}

namespace StaleNodeIndex

/-- The order of the indices: by version, then by node key. -/
def position (index : StaleNodeIndex) : ℕ ×ₗ NodeKey :=
  toLex (index.staleSinceVersion, index.nodeKey)

theorem position_injective : Function.Injective position := by
  rintro ⟨version, key⟩ ⟨version', key'⟩ same
  obtain ⟨rfl, rfl⟩ := same
  rfl

instance : LinearOrder StaleNodeIndex :=
  LinearOrder.lift' position position_injective

theorem staleSinceVersion_le {first second : StaleNodeIndex} (order : first ≤ second) :
    first.staleSinceVersion ≤ second.staleSinceVersion := by
  have positions : first.position ≤ second.position := order
  rcases (Prod.Lex.le_iff).mp positions with less | ⟨same, -⟩
  · exact less.le
  · exact same.le

end StaleNodeIndex

/-- Stale nodes in the order of the versions since which they are stale. -/
abbrev StaleNodeIndices := List StaleNodeIndex

namespace StaleNodeIndices

/-- The iterator, from a version on. -/
def seek (indices : Finset StaleNodeIndex) (leastReadableVersion : Nat) : StaleNodeIndices :=
  (indices.filter fun index => leastReadableVersion ≤ index.staleSinceVersion).sort

/-- The indices of the next version up to the target, and those after them. -/
def nextResult (targetLeastReadableVersion : Nat) :
    StaleNodeIndices → Option (List StaleNodeIndex × StaleNodeIndices)
  | [] => none
  | index :: inner =>
    if targetLeastReadableVersion < index.staleSinceVersion then
      none
    else
      let sameVersion (other : StaleNodeIndex) : Bool :=
        other.staleSinceVersion == index.staleSinceVersion
      some (index :: inner.takeWhile sameVersion, inner.dropWhile sameVersion)

/-- The indices of the next versions, at most a number of them. -/
def take (targetLeastReadableVersion : Nat) :
    (maxVersions : Nat) → StaleNodeIndices → List (List StaleNodeIndex)
  | 0, _ => []
  | maxVersions + 1, inner =>
    match nextResult targetLeastReadableVersion inner with
    | none => []
    | some (indices, inner) => indices :: take targetLeastReadableVersion maxVersions inner

end StaleNodeIndices

namespace StateStore

def deleteNodes (store : StateStore Value) (indices : List StaleNodeIndex) : StateStore Value :=
  { store with
    nodes := fun key =>
      if key ∈ indices.map nodeKey then
        none
      else
        store.nodes key }

/-- Prune some versions, and return the least readable version after that. -/
def pruneState (store : StateStore Value)
    (leastReadableVersion targetLeastReadableVersion maxVersions : Nat) : Nat × StateStore Value :=
  let indices := (StaleNodeIndices.take targetLeastReadableVersion maxVersions
    (.seek store.staleNodeIndices leastReadableVersion)).flatten
  match indices.getLast? with
  | none => (leastReadableVersion, store)
  | some last => (last.staleSinceVersion, store.deleteNodes indices)

/-- Where a pruner starts: just before the first version that made a node stale. -/
def getLeastReadableVersion (store : StateStore Value) : Fallible Nat :=
  match StaleNodeIndices.seek store.staleNodeIndices 0 with
  | [] => .ok 0
  | index :: _ => do
      Fallible.require (0 < index.staleSinceVersion) "Nothing is stale since version 0."
      return index.staleSinceVersion - 1

/-- Delete the indices from one version on and before another. -/
def rangeDelete (store : StateStore Value) (start stop : Nat) : StateStore Value :=
  { store with
    staleNodeIndices := store.staleNodeIndices.filter fun index =>
      ¬ (start ≤ index.staleSinceVersion ∧ index.staleSinceVersion < stop) }

end StateStore

/-- What happens to storage. -/
inductive StateEvent (Value : Type) where
  | commit (call : StateCommit Value)
  /-- A round of pruning, a minute after the indices were purged or not. -/
  | prune (targetLeastReadableVersion maxVersions : Nat) (minuteOver : Bool)
  | restart

namespace StateEvent

/-- The calls among some events. -/
def commits : List (StateEvent Value) → List (StateCommit Value)
  | [] => []
  | .commit call :: events => call :: commits events
  | .prune _ _ _ :: events | .restart :: events => commits events

/-- The value sets that an event puts. -/
def valueSets : StateEvent Value → List (KeyValues Value)
  | .commit call => call.valueSets
  | .prune _ _ _ | .restart => []

theorem allValueSets_commits (events : List (StateEvent Value)) :
    StateCommit.allValueSets (commits events) = events.flatMap valueSets := by
  induction events with
  | nil => rfl
  | cons event events ih =>
    rw [flatMap_cons, ← ih]
    cases event with
    | commit call => rfl
    | prune target maxVersions minuteOver => rfl
    | restart => rfl

end StateEvent

/-- Storage with a pruner. -/
structure PrunedStore (Value : Type) where
  nextVersion : Nat
  /-- The largest version that pruning has returned; restarts do not change it. -/
  leastReadableVersion : Nat
  /-- The version that pruning returned last, where it continues. -/
  workerProgress : Nat
  indexMinNonpurgedVersion : Nat
  store : StateStore Value

namespace PrunedStore

/-- Nothing is stored. -/
def empty : PrunedStore Value where
  nextVersion := 0
  leastReadableVersion := 0
  workerProgress := 0
  indexMinNonpurgedVersion := 0
  store := .empty

/-- How many versions are purged at least. -/
def minVersions : Nat := 60000

/--
Purge the indices of the pruned versions, if these are enough.  Right after a purge the
difference wraps around, and nothing is done.
-/
def maybePurgeIndex (db : PrunedStore Value) : PrunedStore Value :=
  if minVersions < Word64.wrap (Word64.sub db.workerProgress db.indexMinNonpurgedVersion + 1) then
    { db with
      indexMinNonpurgedVersion := db.workerProgress + 1
      store := db.store.rangeDelete db.indexMinNonpurgedVersion (db.workerProgress + 1) }
  else
    db

/-- Prune from the recorded progress on, and record the new one. -/
def prune (db : PrunedStore Value) (targetLeastReadableVersion maxVersions : Nat) :
    PrunedStore Value :=
  let (leastReadableVersion, store) :=
    db.store.pruneState db.workerProgress targetLeastReadableVersion maxVersions
  { db with
    leastReadableVersion := max db.leastReadableVersion leastReadableVersion
    workerProgress := leastReadableVersion
    store := store }

variable (hasher : StateHasher Value)

/-- One event. -/
def step (counts : Bool) (db : PrunedStore Value) :
    StateEvent Value → Fallible (PrunedStore Value)
  | .commit call => do
      let (_, store) ← db.store.commit hasher counts db.nextVersion call
      return { db with
        nextVersion := db.nextVersion + call.valueSets.length
        store := store }
  | .prune targetLeastReadableVersion maxVersions minuteOver =>
    let db := db.prune targetLeastReadableVersion maxVersions
    .ok (if minuteOver then db.maybePurgeIndex else db)
  | .restart => do
      let leastReadableVersion ← db.store.getLeastReadableVersion
      return { db with
        workerProgress := leastReadableVersion
        indexMinNonpurgedVersion := 0 }

/-- A history of events. -/
def run (counts : Bool) (events : List (StateEvent Value)) : Fallible (PrunedStore Value) :=
  events.foldlM (step hasher counts) empty

end PrunedStore

/-- Keys that a stored tree leads to from its root. -/
inductive TreeReader.Reachable (reader : TreeReader Value) (root : NodeKey) : NodeKey → Prop where
  | root : Reachable reader root root
  | child
      {key : NodeKey}
      {node : InternalNode}
      {nibble : Nibble}
      {child : Child} :
      Reachable reader root key →
      reader key = some (.internal node) →
      node.children nibble = some child →
      Reachable reader root (key.genChildNodeKey child.version nibble)

namespace StaleNodeIndices

variable {indices : StaleNodeIndices}

section

variable (sorted : (indices.map staleSinceVersion).Pairwise (· ≤ ·))
include sorted

theorem lt_of_mem_dropWhile {version : Nat}
    (least : ∀ index ∈ indices, version ≤ index.staleSinceVersion) :
    ∀ index ∈ indices.dropWhile (fun other => other.staleSinceVersion == version),
      version < index.staleSinceVersion := by
  induction indices with
  | nil => nofun
  | cons first rest ih =>
    rw [map_cons, pairwise_cons] at sorted
    obtain ⟨firstLeast, sorted⟩ := sorted
    intro index member
    by_cases same : first.staleSinceVersion = version
    · rw [dropWhile_cons_of_pos (by simpa using same)] at member
      exact ih sorted (fun other inRest => least other (mem_cons_of_mem _ inRest)) index member
    · rw [dropWhile_cons_of_neg (by simpa using same)] at member
      have above := least first mem_cons_self
      rcases mem_cons.mp member with rfl | inRest
      · omega
      · have order := firstLeast _ (mem_map_of_mem inRest)
        omega

theorem nextResult_spec (target : Nat) {group remaining : StaleNodeIndices}
    (result : nextResult target indices = some (group, remaining)) :
    indices = group ++ remaining ∧ group ≠ [] ∧
      ∃ version, (∀ index ∈ group, index.staleSinceVersion = version) ∧
        ∀ index ∈ remaining, version < index.staleSinceVersion := by
  cases indices with
  | nil => cases result
  | cons first inner =>
    rw [nextResult] at result
    split at result
    · cases result
    · cases result
      rw [map_cons, pairwise_cons] at sorted
      obtain ⟨firstLeast, sorted⟩ := sorted
      refine ⟨?_, by simp, first.staleSinceVersion, ?_, ?_⟩
      · rw [cons_append, takeWhile_append_dropWhile]
      · intro index member
        rcases mem_cons.mp member with rfl | inGroup
        · rfl
        · simpa using mem_takeWhile_imp inGroup
      · exact lt_of_mem_dropWhile sorted fun index inInner => firstLeast _ (mem_map_of_mem inInner)

/-- The pruner takes all indices up to the last version that it takes. -/
theorem take_spec (target maxVersions : Nat) :
    ∃ rest, indices = (take target maxVersions indices).flatten ++ rest ∧
      ∀ last ∈ (take target maxVersions indices).flatten.getLast?,
        ∀ index ∈ rest, last.staleSinceVersion < index.staleSinceVersion := by
  induction maxVersions generalizing indices with
  | zero => exact ⟨indices, rfl, nofun⟩
  | succ maxVersions ih =>
    rw [take]
    cases result : nextResult target indices with
    | none => exact ⟨indices, rfl, nofun⟩
    | some next =>
      obtain ⟨group, remaining⟩ := next
      obtain ⟨rfl, nonempty, version, inGroup, after⟩ := nextResult_spec sorted target result
      rw [map_append, pairwise_append] at sorted
      obtain ⟨rest, split, beyond⟩ := ih sorted.2.1
      refine ⟨rest, ?_, ?_⟩
      · rw [flatten_cons, append_assoc, ← split]
      · intro last isLast index member
        rw [flatten_cons, getLast?_append] at isLast
        cases later : (take target maxVersions remaining).flatten.getLast? with
        | some laterLast =>
          rw [later, Option.some_or] at isLast
          cases isLast
          exact beyond last later index member
        | none =>
          rw [later, Option.none_or] at isLast
          rw [inGroup last (mem_of_getLast? isLast)]
          refine after index ?_
          rw [split]
          exact mem_append_right _ member

end

variable {stale : Finset StaleNodeIndex} {least : Nat}

theorem mem_seek {index : StaleNodeIndex} :
    index ∈ seek stale least ↔ index ∈ stale ∧ least ≤ index.staleSinceVersion := by
  rw [seek, Finset.mem_sort, Finset.mem_filter]

variable (stale least) in
theorem pairwise_seek : ((seek stale least).map staleSinceVersion).Pairwise (· ≤ ·) := by
  rw [pairwise_map]
  exact (Finset.pairwise_sort _ (· ≤ ·)).imp staleSinceVersion_le

/-- What the pruner deletes is stale since a version up to the one it returns. -/
theorem mem_taken_iff {target maxVersions : Nat} {last : StaleNodeIndex}
    (isLast : (take target maxVersions (seek stale least)).flatten.getLast? = some last)
    (index : StaleNodeIndex) :
    index ∈ (take target maxVersions (seek stale least)).flatten ↔
      index ∈ stale ∧ least ≤ index.staleSinceVersion ∧
        index.staleSinceVersion ≤ last.staleSinceVersion := by
  have sorted := pairwise_seek stale least
  obtain ⟨rest, split, beyond⟩ := take_spec sorted target maxVersions
  constructor
  · intro taken
    have inSeek : index ∈ seek stale least := by
      rw [split]
      exact mem_append_left _ taken
    obtain ⟨isStale, recent⟩ := mem_seek.mp inSeek
    refine ⟨isStale, recent, ?_⟩
    obtain ⟨front, shape⟩ := getLast?_eq_some_iff.mp isLast
    rw [split, map_append, pairwise_append, shape, map_append, pairwise_append] at sorted
    rw [shape] at taken
    rcases mem_append.mp taken with inFront | isIndex
    · exact sorted.1.2.2 _ (mem_map_of_mem inFront) _ (by simp)
    · rw [mem_singleton.mp isIndex]
  · rintro ⟨isStale, recent, bound⟩
    have inSeek := mem_seek.mpr ⟨isStale, recent⟩
    rw [split] at inSeek
    rcases mem_append.mp inSeek with taken | inRest
    · exact taken
    · have above := beyond last isLast index inRest
      omega

end StaleNodeIndices

variable {hasher : StateHasher Value}
  {counts : Bool} {purged least : Nat} {store : StateStore Value}
  {tries : List (JellyfishTrie Value)} {trie : JellyfishTrie Value}
  {valueSets earlier : List (KeyValues Value)}

namespace Committed

section

variable (committed : Committed hasher counts purged least store valueSets tries)
include committed

/-- Pruning removes what is stale since a version up to the one it returns. -/
theorem pruneState {progress : Nat} (behind : progress ≤ least) (target maxVersions : Nat) :
    Committed hasher counts purged
      (max least (store.pruneState progress target maxVersions).1)
      (store.pruneState progress target maxVersions).2 valueSets tries := by
  rw [StateStore.pruneState]
  split
  · rw [max_eq_left behind]
    exact committed
  · rename_i last isLast
    have taken := StaleNodeIndices.mem_taken_iff isLast
    have lastStale := (committed.stale last).mp ((taken last).mp (mem_of_getLast? isLast)).1
    have deleted : ∀ key, key ∈ map nodeKey
        (StaleNodeIndices.take target maxVersions
          (.seek store.staleNodeIndices progress)).flatten ↔
      ∃ version, purged < version ∧ progress ≤ version ∧ version ≤ last.staleSinceVersion ∧
        StaleSince hasher counts tries version key := by
      intro key
      rw [mem_map]
      constructor
      · rintro ⟨index, member, rfl⟩
        obtain ⟨isStale, recent, bound⟩ := (taken index).mp member
        obtain ⟨unpurged, since⟩ := (committed.stale index).mp isStale
        exact ⟨_, unpurged, recent, bound, since⟩
      · rintro ⟨version, unpurged, recent, bound, since⟩
        have isStale := (committed.stale ⟨version, key⟩).mpr ⟨unpurged, since⟩
        exact ⟨⟨version, key⟩, (taken _).mpr ⟨isStale, recent, bound⟩, rfl⟩
    exact
      { length := committed.length
        evolves := committed.evolves
        represents := committed.represents
        readable := by
          obtain ⟨-, before, trie, trie', next, -, found, -⟩ := lastStale
          have bound := (List.getElem?_eq_some_iff.mp found).1
          have readable := committed.readable
          omega
        pruned := committed.pruned.trans (le_max_left _ _)
        nodes := by
          intro key node
          constructor
          · intro found
            obtain ⟨kept, stored⟩ := Option.ite_none_left_eq_some.mp found
            obtain ⟨history, fresh⟩ := committed.nodes.mp stored
            refine ⟨history, fun version bound isStale => ?_⟩
            by_cases early : version ≤ least
            · exact fresh version early isStale
            · -- Only what was not pruned before has to be among the indices.
              have pruned := committed.pruned
              exact kept ((deleted key).mpr ⟨version, by omega, by omega, by omega, isStale⟩)
          · rintro ⟨history, fresh⟩
            refine Option.ite_none_left_eq_some.mpr ⟨?_, ?_⟩
            · intro gone
              obtain ⟨version, -, -, bound, isStale⟩ := (deleted key).mp gone
              exact fresh version (bound.trans (le_max_right _ _)) isStale
            · exact committed.nodes.mpr
                ⟨history, fun version bound => fresh version (bound.trans (le_max_left _ _))⟩
        stale := committed.stale }

/-- Indices of pruned versions can be purged. -/
theorem rangeDelete {start progress : Nat} (gapless : start ≤ purged + 1)
    (behind : progress ≤ least) :
    Committed hasher counts (max purged progress) least
      (store.rangeDelete start (progress + 1)) valueSets tries :=
  { committed with
    pruned := max_le committed.pruned behind
    stale := by
      intro index
      rw [StateStore.rangeDelete, Finset.mem_filter, committed.stale, and_right_comm]
      refine and_congr_left' ?_
      omega }

/-- Every root but the latest one is stale since the version after it. -/
theorem staleSince_root {version : Nat} (bound : version + 1 < tries.length) :
    StaleSince hasher counts tries (version + 1) (newEmptyPath version) := by
  have found' := getElem?_eq_getElem bound
  obtain ⟨trie, found⟩ := Evolves.earlier found' (Nat.le_succ version)
  obtain ⟨present, created⟩ := committed.evolves.created found
  obtain ⟨present', created'⟩ := committed.evolves.created found'
  refine ⟨version, trie, _, rfl, found, found', ?_, ?_⟩
  · rw [newEmptyPath, ← created, nodesOf_root present]
    rfl
  · rw [newEmptyPath, nodesOf_apply, find_nil,
      entry_of_ne_empty present', created', if_neg (Nat.succ_ne_self version)]

/-- A pruner starts where the indices were purged, or anew if none is left. -/
theorem getLeastReadableVersion_eq :
    store.getLeastReadableVersion = .ok (if purged + 1 < tries.length then purged else 0) := by
  have member (index : StaleNodeIndex) : index ∈ StaleNodeIndices.seek store.staleNodeIndices 0 ↔
      purged < index.staleSinceVersion ∧
        StaleSince hasher counts tries index.staleSinceVersion index.nodeKey := by
    rw [StaleNodeIndices.mem_seek, and_iff_left (Nat.zero_le _), committed.stale]
  have ordered := StaleNodeIndices.pairwise_seek store.staleNodeIndices 0
  rw [StateStore.getLeastReadableVersion]
  cases indices : StaleNodeIndices.seek store.staleNodeIndices 0 with
  | nil =>
    rw [if_neg]
    intro two
    have root := (member ⟨_, _⟩).mpr ⟨Nat.lt_succ_self purged, committed.staleSince_root two⟩
    rw [indices] at root
    cases root
  | cons index rest =>
    rw [indices, map_cons, pairwise_cons] at ordered
    simp only [indices] at member
    obtain ⟨unpurged, before, _, _, since, -, found, -⟩ := (member index).mp mem_cons_self
    have bound := (List.getElem?_eq_some_iff.mp found).1
    have root := (member ⟨_, _⟩).mpr
      ⟨Nat.lt_succ_self purged, committed.staleSince_root (by omega)⟩
    have first : index.staleSinceVersion = purged + 1 := by
      rcases mem_cons.mp root with same | later
      · rw [← same]
      · have least := ordered.1 _ (mem_map_of_mem later)
        change index.staleSinceVersion ≤ purged + 1 at least
        omega
    rw [if_pos (by omega)]
    simp only [first]
    rfl

theorem exists_readable {key : NodeKey} {node : Node Value} (stored : store.nodes key = some node) :
    ∃ version trie, least ≤ version ∧ tries[version]? = some trie ∧
      nodesOf hasher counts trie key = some node := by
  obtain ⟨history, fresh⟩ := committed.nodes.mp stored
  obtain ⟨trie, found, has⟩ := Option.bind_eq_some_iff.mp history
  rcases Nat.le_total least key.version with recent | early
  · exact ⟨key.version, trie, recent, found, has⟩
  · have bound := (List.getElem?_eq_some_iff.mp found).1
    have inRange : least < tries.length := by
      have readable := committed.readable
      omega
    have leastFound := getElem?_eq_getElem inRange
    exact ⟨least, _, le_rfl, leastFound, committed.evolves.stays early found leastFound has fresh⟩

end

end Committed

namespace TreeReader

variable {reader : TreeReader Value} {root : NodeKey}

/-- The nodes of a stored tree can be reached from its top. -/
theorem Contains.reachable_find {front : NibblePath}
    (contains : reader.Contains hasher counts front trie) (nibbles : NibblePath)
    (top : reader.Reachable root ⟨rootVersion trie, front⟩) (present : trie.find nibbles ≠ .empty) :
    reader.Reachable root ⟨rootVersion (trie.find nibbles), front ++ nibbles⟩ := by
  induction nibbles generalizing trie front with
  | nil =>
    rw [find_nil, append_nil]
    exact top
  | cons nibble nibbles ih =>
    rw [find_cons] at present ⊢
    have childPresent : trie.subtrees nibble ≠ .empty := by
      intro absent
      rw [absent, find_empty] at present
      exact present rfl
    cases trie with
    | empty => exact (childPresent rfl).elim
    | leaf version key value => exact (childPresent rfl).elim
    | node version subtries =>
      obtain ⟨nodeType, -, child⟩ := childrenOf_eq_some hasher counts childPresent
      have topNode := contains.top (by simp)
      have rest := ih (contains.child nibble) (top.child topNode child) present
      rwa [append_assoc, singleton_append] at rest

/-- The nodes of a stored tree can be reached from its root. -/
theorem Contains.reachable {key : NodeKey} {node : Node Value}
    (contains : reader.Contains hasher counts [] trie)
    (has : nodesOf hasher counts trie key = some node) :
    reader.Reachable (newEmptyPath (rootVersion trie)) key := by
  obtain ⟨version, nibbles⟩ := key
  rw [nodesOf_apply] at has
  have present : trie.find nibbles ≠ .empty := by
    intro absent
    rw [absent, entry_empty] at has
    cases has
  rw [entry_of_ne_empty present] at has
  obtain ⟨created, -⟩ := Option.ite_none_right_eq_some.mp has
  have reached := contains.reachable_find nibbles .root present
  rwa [created, nil_append] at reached

end TreeReader

namespace PrunedStore

variable {db : PrunedStore Value}

variable (hasher counts) in
/-- A database after some versions: only pruned versions lack their nodes or indices. -/
structure Reached (db : PrunedStore Value) (valueSets : List (KeyValues Value))
    (tries : List (JellyfishTrie Value)) (purged : Nat) : Prop where
  version : db.nextVersion = tries.length
  committed :
    Committed hasher counts purged db.leastReadableVersion db.store valueSets tries
  behind : db.workerProgress ≤ db.leastReadableVersion
  gapless : db.indexMinNonpurgedVersion ≤ purged + 1

namespace Reached

variable (hasher counts) in
theorem empty : Reached hasher counts (.empty : PrunedStore Value) [] [] 0 where
  version := rfl
  committed := .empty hasher counts
  behind := le_rfl
  gapless := Nat.zero_le _

section

variable (reached : Reached hasher counts db earlier tries purged)
include reached

theorem maybePurgeIndex :
    ∃ purged', Reached hasher counts db.maybePurgeIndex earlier tries purged' := by
  rw [PrunedStore.maybePurgeIndex]
  split
  · refine ⟨max purged db.workerProgress, reached.version, ?_, reached.behind, ?_⟩
    · exact reached.committed.rangeDelete reached.gapless reached.behind
    · exact Nat.succ_le_succ (le_max_right _ _)
  · exact ⟨purged, reached⟩

theorem prune (target maxVersions : Nat) :
    Reached hasher counts (db.prune target maxVersions) earlier tries purged where
  version := reached.version
  committed := reached.committed.pruneState reached.behind target maxVersions
  behind := le_max_right _ _
  gapless := reached.gapless

/-- A pruner starts at the least readable version or before it. -/
theorem getLeastReadableVersion :
    ∃ least ≤ db.leastReadableVersion, db.store.getLeastReadableVersion = .ok least := by
  refine ⟨_, ?_, reached.committed.getLeastReadableVersion_eq⟩
  have pruned := reached.committed.pruned
  split
  · exact pruned
  · exact Nat.zero_le _

/-- One event keeps the invariant. -/
theorem step (event : StateEvent Value) :
    Outcome event.valueSets (db.step hasher counts event) fun db' =>
      ∃ tries' purged',
        Reached hasher counts db' (earlier ++ event.valueSets) tries' purged' := by
  cases event with
  | commit call =>
    rw [PrunedStore.step, reached.version, StateEvent.valueSets, ← append_nil call.valueSets]
    refine (StateStore.commit_outcome reached.committed call).bind ?_
    rintro ⟨rootHashes, store⟩ ⟨created, committed, -⟩
    refine .inl ⟨nofun, _, rfl, tries ++ created, purged, ?_, ?_, reached.behind, reached.gapless⟩
    · simp [committed.length, reached.committed.length]
    · rw [append_nil]
      exact committed
  | prune target maxVersions minuteOver =>
    refine .inl ⟨nofun, _, rfl, tries, ?_⟩
    rw [StateEvent.valueSets, append_nil]
    have pruned := reached.prune target maxVersions
    split
    · exact pruned.maybePurgeIndex
    · exact ⟨purged, pruned⟩
  | restart =>
    obtain ⟨least, behind, started⟩ := reached.getLeastReadableVersion
    rw [PrunedStore.step, started]
    refine .inl ⟨nofun, _, rfl, tries, purged, ?_⟩
    rw [StateEvent.valueSets, append_nil]
    exact ⟨reached.version, reached.committed, behind, Nat.zero_le _⟩

/-- A history keeps the invariant. -/
theorem run (events : List (StateEvent Value)) :
    Outcome (events.flatMap StateEvent.valueSets)
      (events.foldlM (PrunedStore.step hasher counts) db) fun db' =>
        ∃ tries' purged', Reached hasher counts db'
          (earlier ++ events.flatMap StateEvent.valueSets) tries' purged' := by
  induction events generalizing db earlier tries purged with
  | nil =>
    refine .inl ⟨nofun, db, rfl, tries, purged, ?_⟩
    simpa using reached
  | cons event events ih =>
    rw [foldlM_cons, flatMap_cons]
    refine (reached.step event).bind ?_
    rintro db' ⟨tries', purged', reached'⟩
    rw [← append_assoc]
    exact ih reached'

end

end Reached

/--
For every history of commits, pruning and restarts: unless some version has no values, all
events succeed.  Then every version from the least readable one on returns for every
key the value and the proof that it returns without the pruning, and every node in
storage can be reached from the root of such a version.
-/
theorem pruning_keeps_readable_and_leaks_none
    (hasher : StateHasher Value)
    (counts : Bool)
    (events : List (StateEvent Value)) :
    (∃ db rootHashes unpruned, run hasher counts events = .ok db ∧
      StateStore.commitAll hasher counts 0 (StateEvent.commits events)
          StateStore.empty = .ok (rootHashes, unpruned) ∧
      db.nextVersion = (events.flatMap StateEvent.valueSets).length ∧
      (∀ version, db.leastReadableVersion ≤ version → version < db.nextVersion →
        ∀ key, ∃ value proof, unpruned.nodes.getWithProof hasher key version = .ok (value, proof) ∧
          db.store.nodes.getWithProof hasher key version = .ok (value, proof)) ∧
      (∀ key node, db.store.nodes key = some node →
        ∃ version, db.leastReadableVersion ≤ version ∧ version < db.nextVersion ∧
          db.store.nodes.Reachable (newEmptyPath version) key)) ∨
    ([] ∈ events.flatMap StateEvent.valueSets ∧
      run hasher counts events = .error emptyValueSet) := by
  have pruned := (Reached.empty hasher counts).run events
  have unpruned :=
    StateStore.commitAll_outcome (Committed.empty hasher counts) (StateEvent.commits events)
  rw [StateEvent.allValueSets_commits] at unpruned
  rcases pruned with ⟨good, db, done, tries, purged, version, committed, -⟩ | failed
  · rcases unpruned with
      ⟨-, ⟨rootHashes, unprunedStore⟩, unprunedDone, unprunedTries, unprunedCommitted, -⟩ | ⟨bad, -⟩
    · refine .inl ⟨db, rootHashes, unprunedStore, done, unprunedDone,
        version.trans committed.length, ?_, ?_⟩
      · intro version' recent bound key
        rw [version, committed.length] at bound
        exact ⟨_, _, getWithProof_eq (unprunedCommitted.holds (Nat.zero_le version') bound) key,
          getWithProof_eq (committed.holds recent bound) key⟩
      · intro key node stored
        obtain ⟨version', trie, recent, found, has⟩ := committed.exists_readable stored
        have bound := (List.getElem?_eq_some_iff.mp found).1
        refine ⟨version', recent, by omega, ?_⟩
        have contains : db.store.nodes.Contains hasher counts [] trie :=
          contains_of_nodes fun _ _ has => committed.stored recent found has
        have reached := contains.reachable has
        rwa [(committed.evolves.created found).2] at reached
    · exact (good bad).elim
  · exact .inr failed

/-!
## The start of a pruner
-/

/-- Every version from some one on can be read. -/
def ReadableFrom (hasher : StateHasher Value) (db : PrunedStore Value)
    (least : Nat) : Prop :=
  ∀ version, least ≤ version → version < db.nextVersion →
    ∀ key, ∃ value proof, db.store.nodes.getWithProof hasher key version = .ok (value, proof)

/-- A root that is stale since a readable version is gone. -/
theorem Reached.not_readable (reached : Reached hasher counts db valueSets tries purged)
    (before : least < db.leastReadableVersion) : ¬ db.ReadableFrom hasher least := by
  intro readable
  have bound := reached.committed.readable
  have gone : db.store.nodes (newEmptyPath least) = none := by
    rw [Option.eq_none_iff_forall_ne_some]
    intro node stored
    exact (reached.committed.nodes.mp stored).2 (least + 1) before
      (reached.committed.staleSince_root (by omega))
  have version := reached.version
  obtain ⟨value, proof, read⟩ := readable least le_rfl (by omega) ⟨replicate 64 0, rfl⟩
  rw [getWithProof, getWithProofFrom, getNextNode, if_pos rfl, getNode, gone] at read
  cases read

/--
Without a state from before genesis a pruner can always start: not after the least readable
version, from which every version can be read, but perhaps before it, where none can.
-/
theorem getLeastReadableVersion_behind (hasher : StateHasher Value) (counts : Bool)
    (events : List (StateEvent Value)) :
    (∃ db least, run hasher counts events = .ok db ∧
      db.store.getLeastReadableVersion = .ok least ∧
      least ≤ db.leastReadableVersion ∧
      db.ReadableFrom hasher db.leastReadableVersion ∧
      (db.ReadableFrom hasher least ↔ least = db.leastReadableVersion)) ∨
    ([] ∈ events.flatMap StateEvent.valueSets ∧
      run hasher counts events = .error emptyValueSet) := by
  rcases (Reached.empty hasher counts).run events with
    ⟨-, db, done, tries, purged, reached⟩ | failed
  · obtain ⟨least, behind, started⟩ := reached.getLeastReadableVersion
    have readable : db.ReadableFrom hasher db.leastReadableVersion := by
      intro version recent bound key
      rw [reached.version, reached.committed.length] at bound
      exact ⟨_, _, getWithProof_eq (reached.committed.holds recent bound) key⟩
    refine .inl ⟨db, least, done, started, behind, readable, ?_, ?_⟩
    · intro fromLeast
      by_contra different
      exact reached.not_readable (by omega) fromLeast
    · rintro rfl
      exact readable
  · exact .inr failed

/-- The account all of whose nibbles are zero. -/
def zeroKey : AccountKey := ⟨replicate 64 0, rfl⟩

/-- A database with one leaf from before genesis. -/
def preGenesisStore : StateStore Nat where
  nodes := fun key =>
    if key = newEmptyPath preGenesisVersion then
      some (.leaf ⟨zeroKey, .atom 1, 1⟩)
    else
      none
  staleNodeIndices := ∅

/--
After a round of pruning the first version is gone, but a new pruner starts there: the
indices are not purged yet.  After genesis over an earlier state a pruner panics.
-/
theorem getLeastReadableVersion_wrong :
    (run symbolicHasher false
        [.commit (.putValueSets [[(zeroKey, 1)], [(zeroKey, 2)]]), .prune 1 1 false]).map
        (fun db =>
          (db.store.getLeastReadableVersion,
            db.store.nodes.getWithProof symbolicHasher zeroKey 0)) =
      .ok (.ok 0, .error (.error "Missing state root node at version 0, probably pruned.")) ∧
    (step symbolicHasher false ⟨0, 0, 0, 0, preGenesisStore⟩
        (.commit (.putValueSets [[(zeroKey, 2)]]))).map
        (fun db => db.store.getLeastReadableVersion) =
      .ok (.error (.panic "Nothing is stale since version 0.")) := by
  decide +kernel

end PrunedStore

end Diem
