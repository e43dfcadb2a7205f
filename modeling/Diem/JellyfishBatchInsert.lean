import Diem.JellyfishBatchSpec

namespace Diem

open Fallible (ok_bind)
open AccountKey (starts_getNibble uniform_nibbles)
open KeyValues AccountKey TreeCache List

/-!
# Batch insertion where there is a tree

New keys are inserted at a leaf, which is split if it has another key, or at the
children of an internal node.  The result is the updated trie.
-/

open CompressedTrie JellyfishTrie

variable {Value : Type}

namespace JellyfishMerkleTree

variable {hasher : StateHasher Value}
  {tree : JellyfishMerkleTree Value} {version : Nat}
  {base cache : TreeCache Value} {old nodes : NodeMap Value}
  {front : NibblePath}

variable {hashCache : Option (OrderedMap NibblePath HashValue)} {kvs : KeyValues Value}
  {key : AccountKey} {height : Nat}

section ExistingLeaf

variable {leafKey : AccountKey} {leafValue : Value}

theorem unless_same_key {Result : Type} (same : AccountKey → Value → Result) (rest : Result) :
    (∀ value, kvs ≠ [(leafKey, value)]) →
      (match kvs with
        | [(key, value)] => if key = leafKey then same key value else rest
        | _ => rest) = rest := by
  intro other
  match kvs with
  | [] | _ :: _ :: _ => rfl
  | [(key, value)] => exact if_neg fun here => other value (by rw [here])

theorem Below.override_left {changes items : AccountKey → Option Value}
    (below : Below nibbles changes front key) :
    Below nibbles (override changes items) front key := by
  obtain ⟨starts, value, changed⟩ := below
  exact ⟨starts, value, by rw [override, changed, Option.some_or]⟩

/-- Some new key is not the one of the leaf. -/
theorem exists_other_key (below : SortedBelow front kvs) (nonempty : kvs ≠ [])
    (other : ∀ value, kvs ≠ [(leafKey, value)]) :
    ∃ key, Below nibbles kvs.items front key ∧ key ≠ leafKey := by
  by_cases one : ∃ kv, kvs = [kv]
  · obtain ⟨⟨key, value⟩, rfl⟩ := one
    refine ⟨key, below.below mem_cons_self, ?_⟩
    rintro rfl
    exact other value rfl
  · obtain ⟨first, second, firstBelow, secondBelow, different⟩ :=
      below.exists_two (fun kv shape => one ⟨kv, shape⟩) nonempty
    by_cases same : first = leafKey
    · exact ⟨second, secondBelow, fun same' => different (same.trans same'.symm)⟩
    · exact ⟨first, firstBelow, same⟩

variable {nibble : Nibble}

section

variable {items items' : AccountKey → Option Value}
  (same : ∀ key, front ++ [nibble] <+: key.nibbles → items key = items' key)
  (starts : front ++ [nibble] <+: key.nibbles)
include same starts

variable (leafKey leafValue) in
theorem override_slice :
    override items (single leafKey leafValue) key =
      override items' (single leafKey leafValue) key := by
  rw [override, override, same key starts]

variable (leafValue) in
/-- The leaf does not matter below another child. -/
theorem override_elsewhere (elsewhere : leafKey.getNibble front.length ≠ nibble) :
    items key = override items' (single leafKey leafValue) key := by
  have different : key ≠ leafKey := by
    rintro rfl
    exact elsewhere (getNibble_eq starts)
  rw [override, single, if_neg different, Option.or_none, same key starts]

end

theorem putExistingLeaf_spec {counts isolated : Bool} {bucket : Nibble}
    {subtries : Nibble → JellyfishTrie Value} (absent : isolated = true → subtries bucket = .empty)
    (shows : Shows base cache version old (opened hasher counts nodes front subtries)) :
    let final :=
      if isolated then
        Function.update subtries bucket (.leaf version leafKey leafValue)
      else
        subtries
    ∃ cache', putExistingLeaf hasher version ⟨version, front⟩
        (.new hasher leafKey leafValue) bucket isolated
        (childrenOf hasher counts subtries) cache =
      .ok (childrenOf hasher counts final, cache') ∧
      Shows base cache' version old (opened hasher counts nodes front final) := by
  intro final
  cases isolated with
  | false => exact ⟨cache, rfl, shows⟩
  | true =>
    rw [opened_eq_graft _ (absent rfl)] at shows
    obtain ⟨cache', added, shows'⟩ := putNode_leaf shows leafKey leafValue
    rw [opened_graft] at shows'
    refine ⟨cache', ?_, shows'⟩
    have type : (toNode hasher counts (.leaf version leafKey leafValue)).nodeType = .ok .leaf :=
      rfl
    have recorded : (childrenOf hasher counts subtries).insert bucket
            ⟨_, rootVersion (.leaf version leafKey leafValue), .leaf⟩ =
          childrenOf hasher counts
            (Function.update subtries bucket (.leaf version leafKey leafValue)) :=
      childrenOf_insert type
    simp only [putExistingLeaf, if_true, NodeKey.genChildNodeKey, added, ok_bind]
    exact congrArg (fun children => Except.ok (children, cache')) recorded

theorem build_same_key {value : Value} (starts : front <+: leafKey.nibbles) :
    build uniform_nibbles version
        (override (items [(leafKey, value)]) (single leafKey leafValue)) front =
      .leaf version leafKey value := by
  have same : override (single leafKey value) (single leafKey leafValue) =
        single leafKey value := by
    funext query
    by_cases isLeaf : query = leafKey <;> simp [override, single, isLeaf]
  rw [items_singleton, same]
  exact updated_empty_single _ _ starts

open Classical in
/-- The subtree at a nibble that some new key has. -/
noncomputable def touchedSubtree
    (version : Nat)
    (kvs : KeyValues Value)
    (leafKey : AccountKey)
    (leafValue : Value)
    (front : NibblePath)
    (nibble : Nibble) : JellyfishTrie Value :=
  if ∃ key, Below nibbles kvs.items (front ++ [nibble]) key then
    build uniform_nibbles version
      (override kvs.items (single leafKey leafValue)) (front ++ [nibble])
  else
    .empty

theorem touchedSubtree_eq (touched : Below nibbles kvs.items (front ++ [nibble]) key) :
    touchedSubtree version kvs leafKey leafValue front nibble = build uniform_nibbles version
      (override kvs.items (single leafKey leafValue)) (front ++ [nibble]) :=
  if_pos ⟨key, touched⟩

theorem touchedSubtree_empty
    (untouched : ∀ key, ¬ Below nibbles kvs.items (front ++ [nibble]) key) :
    touchedSubtree version kvs leafKey leafValue front nibble = .empty :=
  if_neg fun ⟨key, touched⟩ => untouched key touched

/-- With the leaf on its own nibble, all subtrees are there. -/
theorem touchedSubtree_with_leaf (short : front.length < rootNibbleHeight)
    (starts : front <+: leafKey.nibbles) {isolated : Bool}
    (alone : isolated = true ↔
      ∀ key, ¬ Below nibbles kvs.items (front ++ [leafKey.getNibble front.length]) key) :
    (if isolated then
        Function.update (touchedSubtree version kvs leafKey leafValue front)
          (leafKey.getNibble front.length) (.leaf version leafKey leafValue)
      else
        touchedSubtree version kvs leafKey leafValue front) =
      fun nibble =>
        build uniform_nibbles version (override kvs.items (single leafKey leafValue))
          (front ++ [nibble]) := by
  have nextStarts := starts_getNibble starts short
  have elsewhere : ∀ nibble, nibble ≠ leafKey.getNibble front.length →
        touchedSubtree version kvs leafKey leafValue front nibble =
          build uniform_nibbles version (override kvs.items (single leafKey leafValue))
            (front ++ [nibble]) := by
    intro nibble different
    by_cases touched : ∃ key, Below nibbles kvs.items (front ++ [nibble]) key
    · obtain ⟨key, below⟩ := touched
      exact touchedSubtree_eq below
    · have untouched := not_exists.mp touched
      rw [touchedSubtree_empty untouched]
      refine (build_empty _ _ fun key below => untouched key ?_).symm
      refine below.congr fun key starts => ?_
      exact (override_elsewhere leafValue (fun _ _ => rfl) starts (.symm different)).symm
  funext nibble
  by_cases here : nibble = leafKey.getNibble front.length
  · subst here
    cases isolated with
    | true =>
      have untouched := alone.mp rfl
      rw [if_pos rfl, Function.update_self]
      refine (build_leaf uniform_nibbles version nextStarts ?_ ?_).symm
      · rw [override_of_unchanged untouched nextStarts, single, if_pos rfl]
      · intro key below
        obtain ⟨keyStarts, value, stored⟩ := below
        rw [override_of_unchanged untouched keyStarts] at stored
        exact eq_of_single stored
    | false =>
      by_cases touched :
          ∃ key, Below nibbles kvs.items (front ++ [leafKey.getNibble front.length]) key
      · obtain ⟨key, below⟩ := touched
        exact touchedSubtree_eq below
      · have untouched := alone.mpr fun key below => touched ⟨key, below⟩
        cases untouched
  · cases isolated with
    | true =>
      rw [if_pos rfl, Function.update_of_ne here]
      exact elsewhere nibble here
    | false => exact elsewhere nibble here

theorem isolated_iff (below : SortedBelow front kvs) (short : front.length < rootNibbleHeight)
    {slices : List (KeyValues Value)} (splits : Splits front.length kvs slices) (nibble : Nibble) :
    (slices.all fun slice => slice.firstNibble front.length ≠ nibble) = true ↔
      ∀ key, ¬ Below nibbles kvs.items (front ++ [nibble]) key := by
  rw [← not_exists, ← mem_slices_iff below short splits, all_eq_true]
  simp

/-- Creating the subtree of some keys and of a leaf that was removed. -/
theorem batchCreateSubtreeWithExistingLeaf_spec (lengths : front.length + height = rootNibbleHeight)
    (starts : front <+: leafKey.nibbles) (below : SortedBelow front kvs) (nonempty : kvs ≠ [])
    (supplies : Supplies hasher tree.counts hashCache kvs.items front
      (build uniform_nibbles version (override kvs.items (single leafKey leafValue)) front))
    (shows : Shows base cache version old (graft hasher tree.counts nodes front .empty)) :
    Grafts hasher tree.counts base version old nodes front
      (build uniform_nibbles version (override kvs.items (single leafKey leafValue)) front)
      (tree.batchCreateSubtreeWithExistingLeaf hasher version hashCache
        (.new hasher leafKey leafValue) height ⟨version, front⟩ kvs
        cache) := by
  induction height using Nat.strong_induction_on generalizing front kvs cache nodes with
  | _ height ih =>
    by_cases same : ∃ value, kvs = [(leafKey, value)]
    · obtain ⟨value, rfl⟩ := same
      rw [build_same_key starts]
      cases height <;>
        simpa [batchCreateSubtreeWithExistingLeaf, LeafNode.new] using
          putLeafNode_spec shows leafKey value
    · have other : ∀ value, kvs ≠ [(leafKey, value)] := fun value shape => same ⟨value, shape⟩
      obtain ⟨key, keyBelow, different⟩ := exists_other_key below nonempty other
      have short := uniform_nibbles.front_length_lt keyBelow.1 starts different
      obtain ⟨height, rfl⟩ := Nat.exists_eq_add_one.mpr (by omega : 0 < height)
      have leafBelow :
          Below nibbles (override kvs.items (single leafKey leafValue)) front leafKey :=
        Below.override ⟨starts, leafValue, if_pos rfl⟩
      have shape :=
        build_node uniform_nibbles version (Below.override_left keyBelow) leafBelow different
      obtain ⟨slices, sliced, splits⟩ := nibbleSlices_spec below short
      have represents := build_represents uniform_nibbles version
        (override kvs.items (single leafKey leafValue)) front
      rw [shape] at represents supplies
      rw [graft_empty] at shows
      obtain ⟨cache₁, inserted, shows₁⟩ :=
        insertSlices_spec
          (fun nibble slice cache =>
            if leafKey.getNibble front.length = nibble then
              tree.batchCreateSubtreeWithExistingLeaf hasher version hashCache
                (.new hasher leafKey leafValue) height
                ⟨version, front ++ [nibble]⟩ slice cache
            else
              tree.batchCreateSubtree hasher version hashCache height
                ⟨version, front ++ [nibble]⟩ slice cache)
          (touchedSubtree version kvs leafKey leafValue front) below short splits
          (by
            intro slice nibble sliceBelow nonempty same cache others absent shows
            rw [opened_eq_graft _ absent] at shows
            have deeper : (front ++ [nibble]).length + height = rootNibbleHeight := by
              rw [length_append, length_singleton]
              omega
            obtain ⟨kv, member⟩ := exists_mem_of_ne_nil slice nonempty
            rw [touchedSubtree_eq ((sliceBelow.below member).congr same)]
            beta_reduce
            by_cases here : leafKey.getNibble front.length = nibble
            · have target :=
                build_congr uniform_nibbles version
                  fun key starts => override_slice leafKey leafValue same starts
              have leafStarts : front ++ [nibble] <+: leafKey.nibbles := by
                rw [← here]
                exact starts_getNibble starts short
              rw [if_pos here, ← target]
              refine ih height (by omega) deeper leafStarts sliceBelow nonempty ?_ shows
              rw [target]
              exact supplies.child nibble same
            · have target :=
                build_congr uniform_nibbles version
                  fun key starts => override_elsewhere leafValue same starts here
              rw [if_neg here, ← target]
              refine batchCreateSubtree_spec deeper sliceBelow nonempty ?_ shows
              rw [target]
              exact supplies.child nibble same)
          (by
            intro nibble key touched
            have inTarget : Below nibbles (override kvs.items (single leafKey leafValue))
                  (front ++ [nibble]) key :=
              Below.override_left touched
            have present := build_present inTarget version
            rw [FreshChild, touchedSubtree_eq touched]
            exact ⟨present, build_rootVersion inTarget, supplies.getHash touched present version⟩)
          (fun nibble untouched => touchedSubtree_empty untouched) shows
      have alone := isolated_iff below short splits (leafKey.getNibble front.length)
      obtain ⟨cache₂, put, shows₂⟩ :=
        putExistingLeaf_spec (fun isolated => touchedSubtree_empty (alone.mp isolated)) shows₁
      rw [touchedSubtree_with_leaf short starts alone] at put shows₂
      rw [childrenOf_empty] at inserted
      have split : tree.batchCreateSubtreeWithExistingLeaf hasher version hashCache
            (.new hasher leafKey leafValue) (height + 1) ⟨version, front⟩
            kvs cache = _ :=
        unless_same_key _ _ other
      have own : (LeafNode.new hasher leafKey leafValue).accountKey = leafKey := rfl
      rw [shape, split]
      simp only [own, depthAt_eq lengths, sliced, ok_bind, NodeKey.genChildNodeKey]
      rw [inserted, ok_bind]
      rw [put, ok_bind]
      exact putInternalNode_spec represents shows₂

end ExistingLeaf

section InsertAt

variable {items : AccountKey → Option Value} {trie : JellyfishTrie Value}
  {changes : AccountKey → Option Value}

theorem updated_present (represents : Represents nibbles items front trie)
    (below : Below nibbles changes front key) (version : Nat) :
    updated uniform_nibbles version changes front trie ≠ .empty :=
  present_of_below (represents.updated uniform_nibbles version changes) (Below.override_left below)

theorem updated_rootVersion (below : Below nibbles changes front key) :
    rootVersion (updated uniform_nibbles version changes front trie) = version := by
  cases trie with
  | empty => exact build_rootVersion below
  | leaf =>
    rw [updated_leaf _ _ below]
    exact build_rootVersion (Below.override_left below)
  | node =>
    rw [updated_node _ _ below]
    rfl

section

variable {counts : Bool} (present : trie ≠ .empty)
  (shows : Shows base cache version old (graft hasher counts nodes front trie))
include present shows

theorem getNode_top :
    cache.getNode ⟨rootVersion trie, front⟩ = .ok (toNode hasher counts trie) := by
  exact shows.getNode (graft_top present)

theorem deleteNode_top :
    ∃ cache', cache.deleteNode ⟨rootVersion trie, front⟩ = .ok cache' ∧
      Shows base cache' version old (opened hasher counts nodes front trie.subtrees) := by
  obtain ⟨cache', deleted, shows'⟩ := shows.deleteNode (graft_top present)
  rw [graft_erase present] at shows'
  exact ⟨cache', deleted, shows'⟩

end

/-- Inserting keys at a node updates its trie. -/
def BatchUpdates (hasher : StateHasher Value) (counts : Bool)
    (base : TreeCache Value) (version : Nat) (old : NodeMap Value)
    (hashCache : Option (OrderedMap NibblePath HashValue)) (items : AccountKey → Option Value)
    (front : NibblePath)
    (insert : NodeKey → KeyValues Value → TreeCache Value → Fallible (Inserted Value)) : Prop :=
  ∀ ⦃trie kvs cache nodes⦄, Represents nibbles items front trie → trie ≠ .empty →
    SortedBelow front kvs →
    kvs ≠ [] →
    Supplies hasher counts hashCache kvs.items front
      (updated uniform_nibbles version kvs.items front trie) →
    Shows base cache version old (graft hasher counts nodes front trie) →
    Grafts hasher counts base version old nodes front
      (updated uniform_nibbles version kvs.items front trie)
      (insert ⟨rootVersion trie, front⟩ kvs cache)

/-- Inserting at a node, if inserting at its children updates them. -/
theorem batchInsertAtNode_spec
    {insertAtChild : NodeKey → KeyValues Value → TreeCache Value → Fallible (Inserted Value)}
    (lengths : front.length + height = rootNibbleHeight)
    (children : front.length < rootNibbleHeight →
      ∀ nibble, BatchUpdates hasher tree.counts base version old hashCache
        items (front ++ [nibble]) insertAtChild) :
    BatchUpdates hasher tree.counts base version old hashCache items front fun nodeKey kvs cache =>
        tree.batchInsertAtNode hasher version hashCache height nodeKey kvs cache
          insertAtChild := by
  intro trie kvs cache nodes represents present below nonempty supplies shows
  obtain ⟨kv, member⟩ := exists_mem_of_ne_nil kvs nonempty
  have changed := below.below member
  obtain ⟨cache₁, deleted, shows₁⟩ := deleteNode_top present shows
  beta_reduce
  rw [batchInsertAtNode, Fallible.require, if_pos nonempty, getNode_top present shows]
  cases trie with
  | empty => exact (present rfl).elim
  | leaf oldVersion leafKey leafValue =>
    have starts : front <+: leafKey.nibbles := by
      cases represents with
      | leaf starts _ _ => exact starts
    rw [updated_leaf _ _ changed] at supplies ⊢
    simp only [toNode, deleted, ok_bind]
    refine batchCreateSubtreeWithExistingLeaf_spec lengths starts below nonempty supplies ?_
    rw [graft_empty]
    exact shows₁
  | node oldVersion subtries =>
    have updatedRepresents := represents.updated uniform_nibbles version kvs.items
    rw [updated_node _ _ changed] at supplies updatedRepresents ⊢
    have short : front.length < rootNibbleHeight := by
      cases represents with
      | node first second different _ =>
        exact uniform_nibbles.front_length_lt first.1 second.1 different
    have childRepresents :
        ∀ nibble, Represents nibbles items (front ++ [nibble]) (subtries nibble) := by
      cases represents with
      | node _ _ _ below => exact below
    obtain ⟨slices, split, splits⟩ := nibbleSlices_spec below short
    obtain ⟨cache₂, inserted, shows₂⟩ :=
      insertSlices_spec
        (fun nibble =>
          tree.batchInsertAtChild hasher version hashCache height ⟨oldVersion, front⟩
            (childrenOf hasher tree.counts subtries nibble)
            insertAtChild nibble)
        (fun nibble =>
          updated uniform_nibbles version kvs.items (front ++ [nibble]) (subtries nibble))
        below short splits
        (by
          intro slice nibble sliceBelow nonempty same cache others sameChild shows
          rw [opened_eq_graft _ sameChild] at shows
          have target := updated_congr uniform_nibbles version same (subtries nibble)
          have childSupplies : Supplies hasher tree.counts hashCache slice.items (front ++ [nibble])
                (updated uniform_nibbles version kvs.items (front ++ [nibble]) (subtries nibble)) :=
            supplies.child nibble same
          beta_reduce
          rw [← target] at childSupplies ⊢
          by_cases absent : subtries nibble = .empty
          · rw [childrenOf_eq_none absent, batchInsertAtChild]
            rw [absent] at childSupplies shows ⊢
            refine batchCreateSubtree_spec ?_ sliceBelow nonempty childSupplies shows
            rw [length_append, length_singleton]
            omega
          · obtain ⟨nodeType, -, child⟩ := childrenOf_eq_some hasher tree.counts absent
            rw [child, batchInsertAtChild]
            exact children short nibble (childRepresents nibble) absent sliceBelow
              nonempty childSupplies shows)
        (by
          intro nibble key touched
          have childPresent := updated_present (childRepresents nibble) touched version
          exact ⟨childPresent, updated_rootVersion touched,
            supplies.getHash touched childPresent version⟩)
        (fun nibble untouched => updated_of_unchanged _ _ untouched _) shows₁
    rw [rootVersion] at deleted
    simp only [toNode_node, rootVersion, deleted, ok_bind, depthAt_eq lengths, split,
      InternalNode.child, InternalNode.ofChildren]
    rw [inserted, ok_bind]
    exact putInternalNode_spec updatedRepresents shows₂

/-- Inserting keys in a batch updates the trie. -/
theorem batchInsertAt_spec (lengths : front.length + height = rootNibbleHeight) :
    BatchUpdates hasher tree.counts base version old hashCache items
      front (tree.batchInsertAt hasher version hashCache height) := by
  induction height generalizing front with
  | zero =>
    refine batchInsertAtNode_spec lengths ?_
    intro short
    omega
  | succ height ih =>
    refine batchInsertAtNode_spec lengths ?_
    intro _ nibble
    refine ih ?_
    rw [length_append, length_singleton]
    omega

end InsertAt

end JellyfishMerkleTree

end Diem
