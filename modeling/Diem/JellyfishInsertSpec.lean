import Diem.JellyfishBatchInsert

namespace Diem

open Function (update update_self update_of_ne)
open Fallible (expect ok_bind require)
open AccountKey (uniform_nibbles)
open TreeCache AccountKey List NibbleIterator

/-!
# Inserting one key updates the trie

A leaf with another key is replaced by a chain of internal nodes that ends where the
two keys part.
-/

open CompressedTrie JellyfishTrie

variable {Value : Type}

namespace NibbleIterator

theorem countCommon_append (front first second : NibblePath) :
    countCommon (front ++ first) (front ++ second) = front.length + countCommon first second := by
  induction front with
  | nil => simp
  | cons nibble front ih =>
    simp only [cons_append, countCommon, if_true, ih, length_cons]
    omega

theorem countCommon_nil (nibbles : NibblePath) : countCommon [] nibbles = 0 := by
  cases nibbles <;> rfl

/-- Where two paths of one length part. -/
theorem countCommon_spec {first second : NibblePath} (lengths : first.length = second.length) :
    (first = second ∧ countCommon first second = first.length) ∨
      ∃ common nibble nibble' firstRest secondRest,
        first = common ++ nibble :: firstRest ∧ second = common ++ nibble' :: secondRest ∧
          nibble ≠ nibble' ∧ countCommon first second = common.length := by
  induction first generalizing second with
  | nil =>
    obtain rfl : second = [] := by
      exact length_eq_zero_iff.mp lengths.symm
    exact .inl ⟨rfl, rfl⟩
  | cons nibble first ih =>
    cases second with
    | nil => cases lengths
    | cons nibble' second =>
      by_cases same : nibble = nibble'
      · subst same
        rcases ih (Nat.succ.inj lengths) with
          ⟨rfl, count⟩ |
          ⟨common, one, two, rest, rest', rfl, rfl, apart, count⟩
        · exact .inl ⟨rfl, by simp [countCommon, count]⟩
        · exact .inr ⟨nibble :: common, one, two, rest, rest', rfl, rfl,
            apart, by simp [countCommon, count]⟩
      · exact .inr ⟨[], nibble, nibble', first, second, rfl, rfl, same, by simp [countCommon, same]⟩

end NibbleIterator

variable {hasher : StateHasher Value} {nodes : NodeMap Value}
  {front : NibblePath} {trie : JellyfishTrie Value}

namespace JellyfishTrie

variable {counts : Bool}

/-- Below an empty place there is nothing either. -/
theorem graft_below_empty {nibbles : NibblePath} (deeper : front <+: nibbles) :
    graft hasher counts (graft hasher counts nodes front .empty) nibbles .empty =
      graft hasher counts nodes front .empty := by
  funext key
  rw [graft]
  split
  · rename_i starts
    rw [find_empty, entry_empty, graft, if_pos (deeper.trans starts), find_empty, entry_empty]
  · rfl

theorem graft_graft (first second : JellyfishTrie Value) :
    graft hasher counts (graft hasher counts nodes front first) front second =
      graft hasher counts nodes front second := by
  funext key
  rw [graft]
  split
  · rename_i starts
    rw [graft, if_pos starts]
  · rename_i outside
    rw [graft_outside outside, graft_outside outside]

end JellyfishTrie

namespace JellyfishMerkleTree

variable {tree : JellyfishMerkleTree Value} {version : Nat} {base cache : TreeCache Value}
  {old : NodeMap Value} {key : AccountKey} {value : Value}

variable (hasher) in
theorem nodeType_of_present (counts : Bool) (present : trie ≠ .empty) :
    ∃ nodeType, (toNode hasher counts trie).nodeType = .ok nodeType := by
  cases trie with
  | empty => exact (present rfl).elim
  | leaf => exact ⟨_, rfl⟩
  | node => exact ⟨_, rfl⟩

variable (value) in
theorem createLeafNode_spec {counts : Bool} {nibbleIter : NibbleIterator}
    (whole : nibbleIter.getNibblePath = key.nibbles)
    (shows : Shows base cache version old (graft hasher counts nodes front .empty)) :
    Grafts hasher counts base version old nodes front (.leaf version key value)
      (createLeafNode hasher ⟨version, front⟩ nibbleIter value cache) := by
  rw [createLeafNode, whole, AccountKey.fromNibbles, dif_pos key.length, expect, ok_bind]
  exact putLeafNode_spec shows key value

section Split

variable {leafKey : AccountKey} {leafValue : Value}

/-- The state of the key and of the leaf. -/
def both (key : AccountKey) (value : Value) (leafKey : AccountKey)
    (leafValue : Value) : AccountKey → Option Value :=
  override (single key value) (single leafKey leafValue)

theorem both_key : both key value leafKey leafValue key = some value := by
  rw [both, override, single, if_pos rfl, Option.some_or]

theorem both_leaf (different : key ≠ leafKey) :
    both key value leafKey leafValue leafKey = some leafValue := by
  rw [both, override, single, if_neg (Ne.symm different), single, if_pos rfl, Option.none_or]

theorem both_cases {query : AccountKey} {found : Value}
    (stored : both key value leafKey leafValue query = some found) :
    query = key ∨ query = leafKey := by
  by_contra neither
  rw [not_or] at neither
  rw [both, override, single, if_neg neither.1, single, if_neg neither.2] at stored
  cases stored

theorem build_both_key (starts : front <+: key.nibbles)
    (leafElsewhere : leafKey ≠ key → ¬ front <+: leafKey.nibbles) :
    build uniform_nibbles version (both key value leafKey leafValue) front =
      .leaf version key value := by
  refine build_leaf uniform_nibbles version starts both_key ?_
  rintro query ⟨queryStarts, found, stored⟩
  rcases both_cases stored with same | same
  · exact same
  · by_contra different
    rw [same] at different queryStarts
    exact leafElsewhere different queryStarts

theorem build_both_leaf (different : key ≠ leafKey) (starts : front <+: leafKey.nibbles)
    (keyElsewhere : ¬ front <+: key.nibbles) :
    build uniform_nibbles version (both key value leafKey leafValue) front =
      .leaf version leafKey leafValue := by
  refine build_leaf uniform_nibbles version starts (both_leaf different) ?_
  rintro query ⟨queryStarts, found, stored⟩
  rcases both_cases stored with same | same
  · rw [same] at queryStarts
    exact (keyElsewhere queryStarts).elim
  · exact same

theorem build_both_none (keyElsewhere : ¬ front <+: key.nibbles)
    (leafElsewhere : ¬ front <+: leafKey.nibbles) :
    build uniform_nibbles version (both key value leafKey leafValue) front =
      .empty := by
  refine build_empty uniform_nibbles version ?_
  rintro query ⟨queryStarts, found, stored⟩
  rcases both_cases stored with rfl | rfl
  · exact keyElsewhere queryStarts
  · exact leafElsewhere queryStarts

variable (version value leafValue) in
theorem build_both_node (different : key ≠ leafKey) (starts : front <+: key.nibbles)
    (leafStarts : front <+: leafKey.nibbles) :
    build uniform_nibbles version (both key value leafKey leafValue) front =
      .node version fun nibble =>
        build uniform_nibbles version (both key value leafKey leafValue) (front ++ [nibble]) :=
  build_node uniform_nibbles version
    ⟨starts, value, both_key⟩ ⟨leafStarts, leafValue, both_leaf different⟩
    different

variable {nibble : Nibble}

theorem not_starts_of_ne {nibbles : NibblePath} {nibble' : Nibble}
    (starts : front ++ [nibble] <+: nibbles) (different : nibble' ≠ nibble) :
    ¬ front ++ [nibble'] <+: nibbles := by
  intro starts'
  have same := prefix_of_prefix_length_le starts starts' (by simp)
  rw [prefix_append_right_inj] at same
  exact different (cons_prefix_cons.mp same).1.symm

/-- Above where the keys part there is one child. -/
theorem build_both_chain (starts : front ++ [nibble] <+: key.nibbles)
    (leafStarts : front ++ [nibble] <+: leafKey.nibbles) :
    (fun other =>
      build uniform_nibbles version (both key value leafKey leafValue) (front ++ [other])) =
      update (fun _ => (.empty : JellyfishTrie Value)) nibble
        (build uniform_nibbles version (both key value leafKey leafValue) (front ++ [nibble])) := by
  funext other
  by_cases same : other = nibble
  · rw [same, update_self]
  · rw [update_of_ne same]
    exact build_both_none (not_starts_of_ne starts same) (not_starts_of_ne leafStarts same)

/-- The chain of internal nodes goes up to where it starts. -/
theorem putChain_spec {common : NibblePath} (different : key ≠ leafKey)
    (starts : front ++ common <+: key.nibbles) (leafStarts : front ++ common <+: leafKey.nibbles)
    (shows : Shows base cache version old (graft hasher tree.counts
        (graft hasher tree.counts nodes front .empty)
        (front ++ common)
        (build uniform_nibbles version (both key value leafKey leafValue) (front ++ common)))) :
    Grafts hasher tree.counts base version old nodes front
      (build uniform_nibbles version (both key value leafKey leafValue) front)
      (tree.putChain hasher version common.length (front ++ common) ⟨version, front ++ common⟩
        (toNode hasher tree.counts
          (build uniform_nibbles version (both key value leafKey leafValue) (front ++ common)))
        cache) := by
  -- induction on the chain, from its end
  induction common using reverseRecOn generalizing cache with
  | nil =>
    simp only [append_nil] at shows ⊢
    rw [graft_graft] at shows
    exact ⟨cache, rfl, shows⟩
  | append_singleton common nibble ih =>
    rw [← append_assoc] at starts leafStarts shows ⊢
    have shorter : front ++ common <+: key.nibbles := (prefix_append _ _).trans starts
    have leafShorter : front ++ common <+: leafKey.nibbles := (prefix_append _ _).trans leafStarts
    have nextBelow :
        Below nibbles (both key value leafKey leafValue) (front ++ common ++ [nibble]) key :=
      ⟨starts, value, both_key⟩
    have present := build_present nextBelow version
    have created : rootVersion _ = version := build_rootVersion nextBelow
    obtain ⟨nodeType, type⟩ := nodeType_of_present hasher tree.counts present
    have recorded : (childrenOf hasher tree.counts fun _ => .empty).insert nibble _ = _ :=
      childrenOf_insert type
    rw [created, childrenOf_empty, ← build_both_chain starts leafStarts] at recorded
    -- the place of the next node has one child
    have openedShows : Shows base cache version old (opened hasher tree.counts
            (graft hasher tree.counts nodes front .empty)
            (front ++ common)
            fun other =>
              build uniform_nibbles version (both key value leafKey leafValue)
                (front ++ common ++ [other])) := by
      rw [build_both_chain starts leafStarts, ← opened_graft, ← graft_empty,
        graft_below_empty (prefix_append _ _)]
      exact shows
    have represents :=
      build_represents uniform_nibbles version (both key value leafKey leafValue) (front ++ common)
    rw [build_both_node version value leafValue different shorter leafShorter] at represents
    obtain ⟨cache', put, shows'⟩ := putInternalNode_spec represents openedShows
    rw [← build_both_node version value leafValue different shorter leafShorter] at put shows'
    rw [length_append, length_singleton, putChain, getLast?_concat, dropLast_concat]
    simp only [expect, ok_bind, type, recorded, put]
    exact ih shorter leafShorter shows'

variable {leafNibble : Nibble}

/-- Where the keys part there are the two leaves. -/
theorem build_both_leaves (starts : front ++ [nibble] <+: key.nibbles)
    (leafStarts : front ++ [leafNibble] <+: leafKey.nibbles) (apart : nibble ≠ leafNibble) :
    (fun other =>
      build uniform_nibbles version (both key value leafKey leafValue) (front ++ [other])) =
      update
        (update (fun _ => (.empty : JellyfishTrie Value))
          leafNibble (.leaf version leafKey leafValue))
        nibble (.leaf version key value) := by
  have different : key ≠ leafKey := by
    rintro rfl
    exact not_starts_of_ne leafStarts apart starts
  funext other
  by_cases isKey : other = nibble
  · rw [isKey, update_self]
    exact build_both_key starts fun _ => not_starts_of_ne leafStarts apart
  · rw [update_of_ne isKey]
    by_cases isLeaf : other = leafNibble
    · rw [isLeaf, update_self]
      exact build_both_leaf different leafStarts (not_starts_of_ne starts (.symm apart))
    · rw [update_of_ne isLeaf]
      exact build_both_none (not_starts_of_ne starts isKey) (not_starts_of_ne leafStarts isLeaf)

variable (value leafValue) in
/-- The two leaves are put where the keys part. -/
theorem splitLeafNode_spec {common rest leafRest : NibblePath}
    (whole : front ++ common ++ nibble :: rest = key.nibbles)
    (leafWhole : front ++ common ++ leafNibble :: leafRest = leafKey.nibbles)
    (apart : nibble ≠ leafNibble)
    (shows : Shows base cache version old (graft hasher tree.counts nodes front .empty)) :
    Grafts hasher tree.counts base version old nodes front
      (build uniform_nibbles version (both key value leafKey leafValue) front)
      (tree.splitLeafNode hasher (.new hasher leafKey leafValue)
        version common.length ⟨front ++ common, nibble :: rest⟩
        ⟨common, leafNibble :: leafRest⟩ value cache) := by
  have starts : front ++ common ++ [nibble] <+: key.nibbles := ⟨rest, by rw [← whole]; simp⟩
  have leafStarts : front ++ common ++ [leafNibble] <+: leafKey.nibbles :=
    ⟨leafRest, by rw [← leafWhole]; simp⟩
  have different : key ≠ leafKey := by
    rintro rfl
    exact not_starts_of_ne leafStarts apart starts
  have shorter : front ++ common <+: key.nibbles := (prefix_append _ _).trans starts
  have leafShorter : front ++ common <+: leafKey.nibbles := (prefix_append _ _).trans leafStarts
  -- the existing leaf, then the new one
  rw [← graft_below_empty (prefix_append front common), graft_empty,
    opened_eq_graft leafNibble rfl] at shows
  obtain ⟨cache₁, putLeaf, shows₁⟩ := putNode_leaf shows leafKey leafValue
  rw [opened_graft, opened_eq_graft nibble (update_of_ne apart _ _)] at shows₁
  have iterWhole :
      (⟨front ++ common ++ [nibble], rest⟩ : NibbleIterator).getNibblePath = key.nibbles := by
    rw [getNibblePath, ← whole]
    simp
  obtain ⟨cache₂, create, shows₂⟩ := createLeafNode_spec value iterWhole shows₁
  rw [opened_graft, ← build_both_leaves starts leafStarts apart] at shows₂
  have represents :=
    build_represents uniform_nibbles version (both key value leafKey leafValue) (front ++ common)
  rw [build_both_node version value leafValue different shorter leafShorter] at represents
  obtain ⟨cache₃, put, shows₃⟩ := putInternalNode_spec represents shows₂
  rw [← build_both_node version value leafValue different shorter leafShorter] at put shows₃
  have recorded : ((Children.new.insert leafNibble
          ⟨(LeafNode.new hasher leafKey leafValue).hash hasher, version, .leaf⟩).insert nibble
          ⟨(LeafNode.new hasher key value).hash hasher, version, .leaf⟩) =
        childrenOf hasher tree.counts fun other =>
          build uniform_nibbles version (both key value leafKey leafValue)
            (front ++ common ++ [other]) := by
    rw [build_both_leaves starts leafStarts apart, childrenOf_update, childrenOf_update]
    rfl
  rw [splitLeafNode]
  simp only [NibbleIterator.next, expect, ok_bind, require, if_pos (Ne.symm apart),
    NodeKey.genChildNodeKey, putLeaf, create]
  simp only [toNode, Node.hash, recorded, put, ok_bind]
  exact putChain_spec different shorter leafShorter shows₃

theorem insertAtLeafNode_spec {rest : NibblePath} {oldVersion : Nat}
    (whole : front ++ rest = key.nibbles) (leafStarts : front <+: leafKey.nibbles)
    (shows : Shows base cache version old
      (graft hasher tree.counts nodes front (.leaf oldVersion leafKey leafValue))) :
    Grafts hasher tree.counts base version old nodes front
      (build uniform_nibbles version (both key value leafKey leafValue) front)
      (tree.insertAtLeafNode hasher ⟨oldVersion, front⟩
        (.new hasher leafKey leafValue) version ⟨front, rest⟩ value
        cache) := by
  obtain ⟨cache₁, deleted, shows₁⟩ := deleteNode_top (by simp) shows
  have emptyShows :
      Shows base cache₁ version old (graft hasher tree.counts nodes front .empty) := by
    rw [graft_empty]
    exact shows₁
  obtain ⟨leafRest, leafWhole⟩ := leafStarts
  have lengths : rest.length = leafRest.length := by
    have total := congrArg length whole
    have leafTotal := congrArg length leafWhole
    rw [length_append, AccountKey.length] at total leafTotal
    omega
  have visited : NibbleIterator.countCommon front leafKey.nibbles = front.length := by
    have counted := NibbleIterator.countCommon_append front [] leafRest
    rw [append_nil, leafWhole, NibbleIterator.countCommon_nil] at counted
    exact counted
  have leafRemaining : leafKey.nibbles.drop front.length = leafRest := by
    rw [← leafWhole]
    simp
  rw [rootVersion] at deleted
  rw [insertAtLeafNode]
  simp only [deleted, ok_bind, NibbleIterator.visitedNibbles, NibbleIterator.remainingNibbles,
    NibbleIterator.skipCommonPrefix, NibbleIterator.new, NibbleIterator.advance, LeafNode.new,
    visited, leafRemaining, NibbleIterator.isFinished, drop_length, isEmpty_nil, require, if_true,
    nil_append]
  rcases NibbleIterator.countCommon_spec lengths with
    ⟨rfl, count⟩ |
    ⟨common, nibble, leafNibble, rest', leafRest', rfl, rfl, apart, count⟩
  · -- the key of the leaf gets a new value
    have same : leafKey = key := AccountKey.nibbles_injective (leafWhole.symm.trans whole)
    have finalWhole : (⟨front ++ rest, []⟩ : NibbleIterator).getNibblePath = key.nibbles := by
      rw [NibbleIterator.getNibblePath, append_nil, whole]
    rw [build_both_key ⟨rest, whole⟩ fun different => (different same).elim]
    simp only [count, take_length, drop_length, isEmpty_nil, if_true, ok_bind]
    exact createLeafNode_spec value finalWhole emptyShows
  · rw [← append_assoc] at whole leafWhole
    have split := splitLeafNode_spec value leafValue whole leafWhole apart emptyShows
    simpa only [count, take_left, drop_left, isEmpty_cons,
      Bool.false_eq_true, if_false, LeafNode.new] using split

end Split

section InsertAt

variable {items : AccountKey → Option Value} {rest : NibblePath}

/-- Inserting a key at a node updates its trie. -/
def Updates (hasher : StateHasher Value) (counts : Bool)
    (base : TreeCache Value) (version : Nat) (old : NodeMap Value)
    (items : AccountKey → Option Value) (key : AccountKey) (value : Value) (front rest : NibblePath)
    (insert : NodeKey → NibbleIterator → TreeCache Value → Fallible (Inserted Value)) : Prop :=
  ∀ ⦃trie cache nodes⦄, Represents nibbles items front trie → trie ≠ .empty →
    Shows base cache version old (graft hasher counts nodes front trie) →
    Grafts hasher counts base version old nodes front
      (updated uniform_nibbles version (single key value) front trie)
      (insert ⟨rootVersion trie, front⟩ ⟨front, rest⟩ cache)

variable {insertAtChild : NodeKey → NibbleIterator → TreeCache Value → Fallible (Inserted Value)}

/-- Inserting at an internal node, if inserting at a child updates it. -/
theorem insertAtInternalNode_spec {oldVersion : Nat} {subtries : Nibble → JellyfishTrie Value}
    {nibble : Nibble} (whole : front ++ nibble :: rest = key.nibbles)
    (represents : Represents nibbles items front (.node oldVersion subtries))
    (shows : Shows base cache version old
      (graft hasher tree.counts nodes front (.node oldVersion subtries)))
    (child : Updates hasher tree.counts base version old items key value
      (front ++ [nibble]) rest insertAtChild) :
    Grafts hasher tree.counts base version old nodes front
      (updated uniform_nibbles version (single key value) front (.node oldVersion subtries))
      (tree.insertAtInternalNode hasher ⟨oldVersion, front⟩
        (.ofChildren (childrenOf hasher tree.counts subtries) tree.counts)
        version ⟨front, nibble :: rest⟩ value cache insertAtChild) := by
  have starts : front ++ [nibble] <+: key.nibbles := ⟨rest, by rw [← whole]; simp⟩
  have changed : Below nibbles (single key value) front key :=
    ⟨(prefix_append _ _).trans starts, value, if_pos rfl⟩
  have childChanged : Below nibbles (single key value) (front ++ [nibble]) key :=
    ⟨starts, value, if_pos rfl⟩
  obtain ⟨cache₁, deleted, shows₁⟩ := deleteNode_top (by simp) shows
  rw [rootVersion] at deleted
  have childRepresents : Represents nibbles items (front ++ [nibble]) (subtries nibble) := by
    cases represents with
    | node _ _ _ below => exact below nibble
  have childShows : Shows base cache₁ version old (graft hasher tree.counts
          (opened hasher tree.counts nodes front subtries)
          (front ++ [nibble]) (subtries nibble)) := by
    rw [← opened_eq_graft nibble rfl]
    exact shows₁
  have childWhole : (⟨front ++ [nibble], rest⟩ : NibbleIterator).getNibblePath = key.nibbles := by
    rw [getNibblePath, ← whole]
    simp
  have inserted : Grafts hasher tree.counts base version old
        (opened hasher tree.counts nodes front subtries)
        (front ++ [nibble])
        (updated uniform_nibbles version (single key value) (front ++ [nibble]) (subtries nibble))
        (insertAtChildNode hasher ⟨oldVersion, front⟩ version
          (childrenOf hasher tree.counts subtries nibble) nibble
          ⟨front ++ [nibble], rest⟩ value cache₁ insertAtChild) := by
    by_cases absent : subtries nibble = .empty
    · rw [childrenOf_eq_none absent, insertAtChildNode]
      rw [absent] at childShows ⊢
      rw [updated_empty_single _ _ starts]
      exact createLeafNode_spec value childWhole childShows
    · obtain ⟨nodeType, -, recorded⟩ := childrenOf_eq_some hasher tree.counts absent
      rw [recorded, insertAtChildNode]
      exact child childRepresents absent childShows
  obtain ⟨cache₂, inserted, shows₂⟩ := inserted
  have childPresent := updated_present childRepresents childChanged version
  have created : rootVersion
          (updated uniform_nibbles version (single key value)
            (front ++ [nibble]) (subtries nibble)) = version :=
    updated_rootVersion childChanged
  obtain ⟨nodeType, type⟩ := nodeType_of_present hasher tree.counts childPresent
  -- the other children stay as they are
  have same : update subtries nibble
          (updated uniform_nibbles version (single key value)
            (front ++ [nibble]) (subtries nibble)) =
        fun other =>
          updated uniform_nibbles version (single key value)
            (front ++ [other]) (subtries other) := by
    funext other
    by_cases here : other = nibble
    · rw [here, update_self]
    · rw [update_of_ne here]
      refine (updated_of_unchanged uniform_nibbles version ?_ _).symm
      rintro query ⟨queryStarts, found, stored⟩
      rw [eq_of_single stored] at queryStarts
      exact not_starts_of_ne starts here queryStarts
  have recorded : (childrenOf hasher tree.counts subtries).insert nibble _ = _ :=
    childrenOf_insert type
  rw [created, same] at recorded
  rw [opened_graft, same] at shows₂
  have updatedRepresents := represents.updated uniform_nibbles version (single key value)
  rw [updated_node _ _ changed] at updatedRepresents ⊢
  rw [insertAtInternalNode]
  simp only [deleted, ok_bind, NibbleIterator.next, expect, InternalNode.child,
    InternalNode.ofChildren, inserted, type, recorded]
  exact putInternalNode_spec updatedRepresents shows₂

/-- Inserting at a node, if inserting at its children updates them. -/
theorem insertAtNode_spec (whole : front ++ rest = key.nibbles)
    (children : ∀ nibble childRest, rest = nibble :: childRest →
      Updates hasher tree.counts base version old items key value
        (front ++ [nibble]) childRest insertAtChild) :
    Updates hasher tree.counts base version old items key value front
      rest fun nodeKey nibbleIter cache =>
        tree.insertAtNode hasher nodeKey version nibbleIter value cache
          insertAtChild := by
  intro trie cache nodes represents present shows
  have changed : Below nibbles (single key value) front key := ⟨⟨rest, whole⟩, value, if_pos rfl⟩
  beta_reduce
  rw [insertAtNode, getNode_top present shows, ok_bind]
  cases trie with
  | empty => exact (present rfl).elim
  | leaf oldVersion leafKey leafValue =>
    cases represents with
    | leaf starts _ _ =>
      rw [updated_leaf _ _ changed]
      exact insertAtLeafNode_spec whole starts shows
  | node oldVersion subtries =>
    cases rest with
    | nil =>
      -- the path of an internal node is not complete
      rw [append_nil] at whole
      rw [whole] at represents
      exact (AccountKey.uniform_nibbles.not_node represents).elim
    | cons nibble rest =>
      exact insertAtInternalNode_spec whole represents shows (children nibble rest rfl)

/-- Inserting one key updates the trie. -/
theorem insertAt_spec {height : Nat} (lengths : front.length + height = rootNibbleHeight)
    (whole : front ++ rest = key.nibbles) :
    Updates hasher tree.counts base version old items key value front
      rest (tree.insertAt hasher version value height) := by
  have total := congrArg length whole
  rw [length_append, AccountKey.length] at total
  induction height generalizing front rest with
  | zero =>
    refine insertAtNode_spec whole ?_
    rintro nibble childRest rfl
    rw [length_cons] at total
    omega
  | succ height ih =>
    refine insertAtNode_spec whole ?_
    rintro nibble childRest rfl
    refine ih ?_ ?_ ?_
    · rw [length_append, length_singleton]
      omega
    · rw [← whole]
      simp
    · rw [length_append, length_singleton]
      rw [length_cons] at total
      omega

end InsertAt

end JellyfishMerkleTree

end Diem
