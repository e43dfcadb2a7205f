import Diem.StateHistory

namespace Diem

open List JellyfishMerkleTree TreeCache

/-!
# The tree is a versioned map

A history is a sequence of calls that put the value sets of consecutive versions, each
written to storage before the next one.  After it, the tree of every version returns
the last write of each key, and its root hash is the root hash of the state.
-/

open CompressedTrie JellyfishTrie TreeCache

variable {Value : Type}

/-- A call that puts the value sets of consecutive versions. -/
inductive StateCommit (Value : Type) where
  | putValueSets (valueSets : List (KeyValues Value))
  | batchPutValueSets (valueSets : List (KeyValues Value))

namespace StateCommit

/-- The value sets of a call. -/
def valueSets : StateCommit Value → List (KeyValues Value)
  | .putValueSets valueSets => valueSets
  | .batchPutValueSets valueSets => valueSets

/-- The value sets of some calls. -/
def allValueSets (commits : List (StateCommit Value)) : List (KeyValues Value) :=
  commits.flatMap valueSets

end StateCommit

namespace StateStore

variable (hasher : StateHasher Value) (counts : Bool)

/-- Call the tree on the nodes in storage and write what it returns. -/
def commit (firstVersion : Nat) (store : StateStore Value) (call : StateCommit Value) :
    Fallible (List HashValue × StateStore Value) := do
  let tree : JellyfishMerkleTree Value := ⟨store.nodes, counts⟩
  let (rootHashes, batch) ←
    match call with
    | .putValueSets valueSets => tree.putValueSets hasher valueSets firstVersion
    | .batchPutValueSets valueSets => tree.batchPutValueSets hasher valueSets none firstVersion
  return (rootHashes, store.write batch)

/-- A history of calls, with the root hash of every version. -/
def commitAll :
    (firstVersion : Nat) → List (StateCommit Value) → StateStore Value →
    Fallible (List HashValue × StateStore Value)
  | _, [], store => .ok ([], store)
  | firstVersion, call :: calls, store => do
      let (rootHashes, store) ← store.commit hasher counts firstVersion call
      let (moreRootHashes, store) ← commitAll (firstVersion + call.valueSets.length) calls store
      return (rootHashes ++ moreRootHashes, store)

end StateStore

/-- How a call fails on a version without values. -/
def emptyValueSet : Failure :=
  .panic "Transactions that output empty write set should not be included."

variable {hasher : StateHasher Value}
  {counts : Bool} {purged least : Nat} {store : StateStore Value}
  {before : List (JellyfishTrie Value)} {cache : TreeCache Value}
  {valueSets earlier : List (KeyValues Value)} {tries : List (JellyfishTrie Value)}
  {trie : JellyfishTrie Value} {valueSet : KeyValues Value}

/-- The top node of a tree has the root hash of the state. -/
theorem toNode_hash {items : AccountKey → Option Value} (counts : Bool)
    (represents : Represents AccountKey.nibbles items [] trie) (present : trie ≠ .empty) :
    (toNode hasher counts trie).hash hasher = stateRoot hasher items := by
  have contains : TreeReader.Contains hasher counts (nodesOf hasher counts trie) [] trie :=
    TreeReader.contains_of_nodes fun _ _ has => has
  obtain ⟨binary, stands⟩ := (contains.holdsBelow represents present).stands
  rw [stands.hash, stateRoot_eq hasher stands.represents]

variable (committed : Committed hasher counts purged least store valueSets tries)

namespace Committed

include committed

theorem represents_latest :
    Represents AccountKey.nibbles (KeyValues.lastOf valueSets.flatten) [] (latest tries) := by
  have lengths := committed.length
  rcases eq_nil_or_concat tries with rfl | ⟨rest, trie, rfl⟩
  · rw [length_eq_zero_iff.mp lengths.symm]
    refine .empty fun key below => ?_
    obtain ⟨-, value, found⟩ := below
    cases found
  · rw [concat_eq_append] at *
    have represents := committed.represents (getElem?_concat_iff.mpr (.inr ⟨rfl, rfl⟩))
    rw [length_append, length_singleton] at lengths
    rw [stateAt, lengths, take_length] at represents
    rwa [latest_concat]

/-- One more version. -/
theorem concat {store' : StateStore Value}
    (represents : Represents AccountKey.nibbles
      (override valueSet.lastOf (KeyValues.lastOf valueSets.flatten)) []
      trie)
    (present : trie ≠ .empty)
    (created : rootVersion trie = tries.length)
    (kept :
      ∀ {key node}, key.version ≠ tries.length → nodesOf hasher counts trie key = some node →
        nodesOf hasher counts (latest tries) key = some node)
    (written : ∀ key, store'.nodes key = (if key.version = tries.length then
      nodesOf hasher counts trie key
      else none).or (store.nodes key))
    (indexed : ∀ index, index ∈ store'.staleNodeIndices ↔ index ∈ store.staleNodeIndices ∨
      index.staleSinceVersion = tries.length ∧
        (nodesOf hasher counts (latest tries) index.nodeKey).isSome = true ∧
        nodesOf hasher counts trie index.nodeKey = none) :
    Committed hasher counts purged least store' (valueSets ++ [valueSet]) (tries ++ [trie]) where
  length := by
    simp [committed.length]
  evolves := committed.evolves.concat present created kept
  represents := by
    intro version other found
    rcases getElem?_concat_iff.mp found with found | ⟨rfl, rfl⟩
    · have bound := (List.getElem?_eq_some_iff.mp found).1
      rw [committed.length] at bound
      rw [stateAt, take_append_of_le_length (by omega)]
      exact committed.represents found
    · rw [stateAt, committed.length, take_of_length_le (by simp),
        flatten_append, KeyValues.lastOf_append]
      simpa using represents
  readable := by
    rw [length_append, length_singleton]
    rcases committed.readable with first | bound
    · exact .inl first
    · exact .inr (by omega)
  pruned := committed.pruned
  nodes := by
    intro key node
    have sameStale :
        (∀ version ≤ least, ¬ StaleSince hasher counts (tries ++ [trie]) version key) ↔
          ∀ version ≤ least, ¬ StaleSince hasher counts tries version key := by
      refine forall₂_congr fun version bound => not_congr ?_
      rw [staleSince_concat_iff, or_iff_left]
      rintro ⟨last, had, -⟩
      have limit := committed.least_lt had
      omega
    rw [sameStale, written]
    by_cases fresh : key.version = tries.length
    · rw [if_pos fresh, historyNode, fresh, getElem?_concat_length, Option.bind_some]
      have absent : store.nodes key = none := by
        rw [Option.eq_none_iff_forall_ne_some]
        intro node found
        have stored := (committed.nodes.mp found).1
        rw [historyNode, fresh, getElem?_eq_none le_rfl] at stored
        cases stored
      rw [absent, Option.or_none, iff_self_and]
      rintro - version -
      rintro ⟨before, trie₁, trie₂, next, found₁, found₂, had, gone⟩
      obtain ⟨node', had⟩ := Option.isSome_iff_exists.mp had
      have earlier := committed.evolves.older found₁ had
      have bound := (List.getElem?_eq_some_iff.mp found₁).1
      omega
    · rw [if_neg fresh, Option.none_or, historyNode_concat_old fresh]
      exact committed.nodes
  stale := by
    intro index
    rw [indexed, committed.stale, staleSince_concat_iff, and_or_left]
    refine or_congr_right (and_iff_right_of_imp ?_).symm
    rintro ⟨last, had, -⟩
    rw [last]
    exact committed.pruned.trans_lt (committed.least_lt had)

end Committed

variable (hasher counts tries) in
/-- The root hashes of some trees. -/
def rootHashesOf : List HashValue :=
  tries.map fun trie => (toNode hasher counts trie).hash hasher

variable (hasher counts purged least store before cache valueSets tries) in
/-- A cache in the course of a call. -/
structure Progress : Prop where
  reader : cache.reader = store.nodes
  committed : Committed hasher counts purged least
    ⟨cache.stored, store.staleNodeIndices ∪ cache.frozenCache.staleNodeIndexCache⟩
    valueSets tries
  ready : TreeCache.Ready hasher counts cache tries.length (latest tries)
  grown : ∃ created, tries = before ++ created ∧
    cache.frozenCache.rootHashes = rootHashesOf hasher counts created

namespace Progress

include committed in
/-- A cache that has frozen nothing, at the start of a call. -/
theorem of_ready (reader : cache.reader = store.nodes) (frozen : cache.frozenCache = .new)
    (ready : TreeCache.Ready hasher counts cache tries.length (latest tries)) :
    Progress hasher counts purged least store tries cache valueSets tries where
  reader := reader
  committed := by
    have sameNodes : cache.stored = store.nodes := by
      funext key
      rw [stored, frozen, reader]
      rfl
    have sameStale : store.staleNodeIndices ∪ cache.frozenCache.staleNodeIndexCache =
          store.staleNodeIndices := by
      rw [frozen]
      exact Finset.union_empty _
    rw [sameNodes, sameStale]
    exact committed
  ready := ready
  grown := by
    refine ⟨[], (append_nil tries).symm, ?_⟩
    rw [frozen]
    rfl

/-- The first call of all starts with a null root. -/
theorem new_first (committed : Committed hasher counts purged least store valueSets []) :
    Progress hasher counts purged least store [] (new store.nodes 0) valueSets [] := by
  have absent : store.nodes (.newEmptyPath preGenesisVersion) = none := by
    rw [Option.eq_none_iff_forall_ne_some]
    intro node found
    cases (committed.nodes.mp found).1
  rw [new, if_pos rfl, absent]
  refine of_ready committed rfl rfl ⟨rfl, rfl, ?_, ?_, ?_⟩
  · intro key node found
    rw [latest_nil, nodesOf_empty] at found
    cases found
  · intro key node found
    rw [latest_nil, nodesOf_empty] at found
    cases found
  · exact .inr ⟨rfl, .inl ⟨rfl, rfl⟩⟩

/-- A later call starts with the root of the version before. -/
theorem new_later
    (committed : Committed hasher counts purged least store valueSets (tries ++ [trie])) :
    Progress hasher counts purged least store (tries ++ [trie])
      (new store.nodes (tries ++ [trie]).length) valueSets
      (tries ++ [trie]) := by
  have found : (tries ++ [trie])[tries.length]? = some trie :=
    getElem?_concat_iff.mpr (.inr ⟨rfl, rfl⟩)
  have lengths : (tries ++ [trie]).length = tries.length + 1 := by simp
  obtain ⟨present, created⟩ := committed.evolves.created found
  have recent : least ≤ tries.length := by
    have readable := committed.readable
    omega
  refine of_ready committed ?_ ?_ ?_
  · rw [new, lengths, if_neg (Nat.succ_ne_zero _)]
  · rw [new, lengths, if_neg (Nat.succ_ne_zero _)]
  rw [new, lengths, if_neg (Nat.succ_ne_zero _), latest_concat]
  refine ⟨rfl, rfl, ?_, ?_, ?_⟩
  · intro key node has
    exact Nat.lt_succ_of_le (committed.evolves.older found has)
  · intro key node has
    exact committed.stored recent found has
  · refine .inl ⟨present, ?_, rfl⟩
    rw [created]
    rfl

include committed in
/-- The cache of a call before its first version. -/
theorem new :
    Progress hasher counts purged least store tries (new store.nodes tries.length) valueSets
      tries := by
  rcases eq_nil_or_concat tries with rfl | ⟨rest, trie, rfl⟩
  · exact new_first committed
  · rw [concat_eq_append] at *
    exact new_later committed

variable (progress : Progress hasher counts purged least store before cache valueSets tries)
include progress

/-- One version of a call. -/
theorem advance {after : TreeCache Value}
    (advanced : Advanced hasher counts cache after tries.length (latest tries) trie)
    (represents : Represents AccountKey.nibbles
      (override valueSet.lastOf (KeyValues.lastOf valueSets.flatten)) []
      trie) :
    Progress hasher counts purged least store before after
      (valueSets ++ [valueSet]) (tries ++ [trie]) where
  reader := advanced.reader.trans progress.reader
  committed := by
    refine progress.committed.concat represents advanced.present
      advanced.created advanced.kept advanced.stored ?_
    intro index
    rw [Finset.mem_union, Finset.mem_union, advanced.frozenStale, or_assoc]
  ready := by
    rw [latest_concat, length_append, length_singleton]
    exact advanced.ready progress.ready
  grown := by
    obtain ⟨created, tries, rootHashes⟩ := progress.grown
    refine ⟨created ++ [trie], ?_, ?_⟩
    · rw [tries, append_assoc]
    · rw [advanced.rootHashes, rootHashes, rootHashesOf, rootHashesOf, map_append]
      rfl

/-- What a call hands to storage. -/
theorem write :
    ∃ created,
      Committed hasher counts purged least (store.write cache.into.2) valueSets
        (before ++ created) ∧
        cache.into.1 = rootHashesOf hasher counts created := by
  obtain ⟨created, rfl, rootHashes⟩ := progress.grown
  refine ⟨created, ?_, rootHashes⟩
  have committed := progress.committed
  have sameNodes : cache.stored = (store.write cache.into.2).nodes := by
    funext key
    rw [stored, progress.reader]
    rfl
  rw [sameNodes] at committed
  exact committed

end Progress

/-- What happens to the versions of a call: all are put, or one has no values. -/
def Outcome {Result : Type} (valueSets : List (KeyValues Value)) (result : Fallible Result)
    (Done : Result → Prop) : Prop :=
  ([] ∉ valueSets ∧ ∃ final, result = .ok final ∧ Done final) ∨
    ([] ∈ valueSets ∧ result = .error emptyValueSet)

theorem Outcome.cons {Result : Type} {result : Fallible Result} {Done : Result → Prop}
    (nonempty : valueSet ≠ []) (outcome : Outcome valueSets result Done) :
    Outcome (valueSet :: valueSets) result Done := by
  rw [Outcome, mem_cons, or_iff_right (Ne.symm nonempty)]
  exact outcome

/-- Some versions and then others. -/
theorem Outcome.bind {Result Result' : Type} {first second : List (KeyValues Value)}
    {result : Fallible Result} {Done : Result → Prop} {next : Result → Fallible Result'}
    {Done' : Result' → Prop} (outcome : Outcome first result Done)
    (later : ∀ final, Done final → Outcome second (next final) Done') :
    Outcome (first ++ second) (result >>= next) Done' := by
  rcases outcome with ⟨good, final, rfl, done⟩ | ⟨bad, rfl⟩
  · rcases later final done with ⟨alsoGood, rest⟩ | ⟨bad, failed⟩
    · refine .inl ⟨?_, rest⟩
      rw [mem_append]
      exact not_or.mpr ⟨good, alsoGood⟩
    · exact .inr ⟨mem_append_right _ bad, failed⟩
  · exact .inr ⟨mem_append_left _ bad, rfl⟩

namespace JellyfishMerkleTree

variable (tree : JellyfishMerkleTree Value) (valueSets : List (KeyValues Value))
  (progress : Progress hasher tree.counts purged least store before cache earlier tries)
include progress

/-- The loop over the versions of a call, in batches. -/
theorem batchPutFrom_outcome :
    Outcome valueSets
      (tree.batchPutFrom hasher tries.length valueSets (valueSets.map fun _ => none) cache)
      fun after =>
        ∃ tries', Progress hasher tree.counts purged least store before after
          (earlier ++ valueSets) tries' := by
  induction valueSets generalizing cache earlier tries with
  | nil =>
    refine .inl ⟨nofun, cache, rfl, tries, ?_⟩
    rw [append_nil]
    exact progress
  | cons valueSet valueSets ih =>
    rw [map_cons, batchPutFrom]
    by_cases nonempty : valueSet = []
    · subst nonempty
      exact .inr ⟨mem_cons_self, rfl⟩
    · have latestRepresents := progress.committed.represents_latest
      obtain ⟨cache', root, after, inserted, frozen, advanced⟩ :=
        batch_advances progress.ready latestRepresents nonempty
          (fun hashes (given : none = some hashes) => nomatch given)
      have next := ih (progress.advance advanced
        (latestRepresents.updated AccountKey.uniform_nibbles _ _))
      rw [Fallible.require, if_pos nonempty]
      simp only [Fallible.ok_bind, inserted, frozen]
      rw [length_append, length_singleton, append_assoc, singleton_append] at next
      exact next.cons nonempty

/-- The loop over the versions of a call, value by value. -/
theorem putFrom_outcome :
    Outcome valueSets (tree.putFrom hasher tries.length valueSets cache)
      fun after =>
        ∃ tries', Progress hasher tree.counts purged least store before after
          (earlier ++ valueSets) tries' := by
  induction valueSets generalizing cache earlier tries with
  | nil =>
    refine .inl ⟨nofun, cache, rfl, tries, ?_⟩
    rw [append_nil]
    exact progress
  | cons valueSet valueSets ih =>
    rw [putFrom]
    by_cases nonempty : valueSet = []
    · subst nonempty
      exact .inr ⟨mem_cons_self, rfl⟩
    · obtain ⟨cache', after, trie, put, frozen, advanced, represents⟩ :=
        put_advances progress.ready progress.committed.represents_latest nonempty
      have next := ih (progress.advance advanced represents)
      rw [Fallible.require, if_pos nonempty]
      simp only [Fallible.ok_bind, put, frozen]
      rw [length_append, length_singleton, append_assoc, singleton_append] at next
      exact next.cons nonempty

end JellyfishMerkleTree

namespace StateStore

section

include committed

theorem commit_outcome (call : StateCommit Value) :
    Outcome call.valueSets (store.commit hasher counts tries.length call)
      fun written =>
        ∃ created, Committed hasher counts purged least written.2
            (valueSets ++ call.valueSets) (tries ++ created) ∧
          written.1 = rootHashesOf hasher counts created := by
  have progress := Progress.new committed
  cases call with
  | putValueSets more =>
    rcases putFrom_outcome ⟨store.nodes, counts⟩ more progress with
      ⟨good, after, put, tries', done⟩ | ⟨bad, failed⟩
    · refine .inl ⟨good, (after.into.1, store.write after.into.2), ?_, done.write⟩
      rw [commit, putValueSets, put]
      rfl
    · refine .inr ⟨bad, ?_⟩
      rw [commit, putValueSets, failed]
      rfl
  | batchPutValueSets more =>
    rcases batchPutFrom_outcome ⟨store.nodes, counts⟩ more progress with
      ⟨good, after, put, tries', done⟩ | ⟨bad, failed⟩
    · refine .inl ⟨good, (after.into.1, store.write after.into.2), ?_, done.write⟩
      rw [commit, batchPutValueSets, put]
      rfl
    · refine .inr ⟨bad, ?_⟩
      rw [commit, batchPutValueSets, failed]
      rfl

/-- A history of calls. -/
theorem commitAll_outcome (calls : List (StateCommit Value)) :
    Outcome (StateCommit.allValueSets calls) (commitAll hasher counts tries.length calls store)
      fun written =>
        ∃ created,
          Committed hasher counts purged least written.2
              (valueSets ++ StateCommit.allValueSets calls) (tries ++ created) ∧
            written.1 = rootHashesOf hasher counts created := by
  induction calls generalizing store valueSets tries with
  | nil =>
    refine .inl ⟨nofun, ([], store), rfl, [], ?_, rfl⟩
    simpa [StateCommit.allValueSets] using committed
  | cons call calls ih =>
    rw [commitAll, StateCommit.allValueSets, flatMap_cons]
    refine (commit_outcome committed call).bind ?_
    rintro ⟨rootHashes, store₁⟩ ⟨created, committed₁, rfl⟩
    have count : (tries ++ created).length = tries.length + call.valueSets.length := by
      rw [committed₁.length, length_append, committed.length]
    have rest := ih committed₁
    rw [count] at rest
    rw [← append_nil (calls.flatMap _)]
    refine rest.bind ?_
    rintro ⟨moreRootHashes, store₂⟩ ⟨more, committed₂, rfl⟩
    refine .inl ⟨nofun, _, rfl, created ++ more, ?_, ?_⟩
    · rw [append_nil]
      rwa [append_assoc, append_assoc] at committed₂
    · exact (map_append ..).symm

end

/--
For every history of calls from an empty tree: unless some version has no values, all
calls succeed, and then looking up a key at a version returns the last write of the
key up to the version, and the root hash of the version, as stored and as returned, is
the root hash of the map of these writes.
-/
theorem commitAll_versioned
    (hasher : StateHasher Value)
    (counts : Bool)
    (calls : List (StateCommit Value)) :
    (∃ rootHashes store,
      commitAll hasher counts 0 calls StateStore.empty = .ok (rootHashes, store) ∧
        rootHashes.length = (StateCommit.allValueSets calls).length ∧
        ∀ version < (StateCommit.allValueSets calls).length, (∀ key, ∃ proof,
          store.nodes.getWithProof hasher key version =
            .ok (stateAt (StateCommit.allValueSets calls) version key, proof)) ∧
          store.nodes.getRootHash hasher version =
            .ok (stateRoot hasher (stateAt (StateCommit.allValueSets calls) version)) ∧
          rootHashes[version]? =
            some (stateRoot hasher (stateAt (StateCommit.allValueSets calls) version))) ∨
    ([] ∈ StateCommit.allValueSets calls ∧
      commitAll hasher counts 0 calls StateStore.empty = .error emptyValueSet) := by
  have outcome := commitAll_outcome (Committed.empty hasher counts) calls
  rw [nil_append, length_nil] at outcome
  rcases outcome with
    ⟨-, ⟨rootHashes, store⟩, done, tries, committed, rfl⟩ | failed
  · rw [nil_append] at committed
    refine .inl ⟨_, store, done, ?_, ?_⟩
    · rw [rootHashesOf, length_map]
      exact committed.length
    · intro version bound
      have holds := committed.holds (Nat.zero_le version) bound
      refine ⟨fun key => ⟨_, TreeReader.getWithProof_eq holds key⟩,
        TreeReader.getRootHash_eq holds, ?_⟩
      rw [← committed.length] at bound
      have found := getElem?_eq_getElem bound
      rw [rootHashesOf, getElem?_map, found, Option.map_some,
        toNode_hash counts (committed.represents found) (committed.evolves.created found).1]
  · exact .inr failed

end StateStore

end Diem
