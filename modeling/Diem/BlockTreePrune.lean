import Diem.BlockTree
import Diem.TreeWalk

namespace Diem

/-!
# Pruning the block tree

`Tidy` says how the links, the pruned ids and the roots of a block tree fit together.
Children are in the tree and know their parents, and rounds grow along the links.  The
pruned ids are closed in both directions: the children of a pruned block are pruned, up
to the root, and a pruned block comes after its parent in the queue.  So the oldest ids
can be removed without leaving a link to a block that is gone.
-/

namespace BlockTree

open List

variable {crypto : Crypto} {tree : BlockTree}
  {ancestor middle id child nextRootId : HashValue} {block childBlock : LinkableBlock}

/-- The block is reached from the ancestor along links to children. -/
inductive Descends (tree : BlockTree) (ancestor : HashValue) : HashValue → Prop where
  | self (found : tree.blockExists ancestor = true) : Descends tree ancestor ancestor
  | child
      {id child : HashValue}
      {block : LinkableBlock}
      (descends : Descends tree ancestor id)
      (found : tree.getLinkableBlock id = some block)
      (isChild : child ∈ block.children)
      (exists_child : tree.blockExists child = true) :
      Descends tree ancestor child

theorem Descends.blockExists (descends : tree.Descends ancestor id) :
    tree.blockExists id = true := by
  cases descends with
  | self found => exact found
  | child _ _ _ found => exact found

theorem blockExists_iff :
    tree.blockExists id = true ↔ ∃ block, tree.getLinkableBlock id = some block := by
  rw [blockExists, Option.isSome_iff_exists]

/-- The links, the pruned ids and the roots fit together. -/
structure Tidy (crypto : Crypto) (tree : BlockTree) : Prop where
  keyed : ∀ id block, tree.getLinkableBlock id = some block → block.id crypto = id
  linked : ∀ id block child, tree.getLinkableBlock id = some block → child ∈ block.children →
    ∃ childBlock, tree.getLinkableBlock child = some childBlock ∧ childBlock.parentId = id ∧
      block.round < childBlock.round
  distinct : ∀ id block, tree.getLinkableBlock id = some block → block.children.Nodup
  rooted : ∀ id block, tree.getLinkableBlock id = some block →
    id ∉ tree.prunedBlockIds → id ≠ tree.commitRootId →
      ∃ parent, tree.getLinkableBlock block.parentId = some parent ∧ id ∈ parent.children
  prunedDown : ∀ id block child, tree.getLinkableBlock id = some block → id ∈ tree.prunedBlockIds →
    child ∈ block.children → child ∈ tree.prunedBlockIds ∨ child = tree.commitRootId
  prunedUp : ∀ front, front <+: tree.prunedBlockIds →
    ∀ id block child, tree.getLinkableBlock id = some block → child ∈ block.children →
      child ∈ front → id ∈ front
  aboveRoot : ∀ id block, tree.getLinkableBlock id = some block →
    tree.commitRootId ∈ block.children → id ∈ tree.prunedBlockIds
  prunedExist : ∀ id ∈ tree.prunedBlockIds, tree.blockExists id = true
  prunedNodup : tree.prunedBlockIds.Nodup
  rootExists : tree.blockExists tree.commitRootId = true
  rootLive : tree.commitRootId ∉ tree.prunedBlockIds

section

variable (tidy : tree.Tidy crypto)
include tidy

section

variable (found : tree.getLinkableBlock id = some block)
include found

/-- A link leads to a child of a greater round that knows its parent. -/
theorem Tidy.link (isChild : child ∈ block.children)
    (foundChild : tree.getLinkableBlock child = some childBlock) :
    childBlock.parentId = id ∧ block.round < childBlock.round := by
  obtain ⟨linked, foundLinked, link⟩ := tidy.linked _ _ _ found isChild
  rw [foundChild] at foundLinked
  cases foundLinked
  exact link

/-- Rounds do not decrease along the links. -/
theorem Tidy.round_le {ancestorBlock : LinkableBlock} (descends : tree.Descends ancestor id)
    (isAncestor : tree.getLinkableBlock ancestor = some ancestorBlock) :
    ancestorBlock.round ≤ block.round := by
  induction descends generalizing block with
  | self _ =>
    rw [isAncestor] at found
    cases found
    exact le_rfl
  | child _ foundParent isChild _ ih =>
    obtain ⟨-, grows⟩ := tidy.link foundParent isChild found
    exact (ih foundParent).trans grows.le

theorem Tidy.pruned_of_child (isChild : child ∈ block.children)
    (pruned : child ∈ tree.prunedBlockIds) : id ∈ tree.prunedBlockIds :=
  tidy.prunedUp tree.prunedBlockIds prefix_rfl id block child found isChild pruned

/-- Every block is below the root or pruned; the induction is on the round. -/
theorem Tidy.covered : tree.Descends tree.commitRootId id ∨ id ∈ tree.prunedBlockIds := by
  induction isRound : block.round using Nat.strongRecOn generalizing id block with
  | ind bound ih =>
    by_cases pruned : id ∈ tree.prunedBlockIds
    · exact .inr pruned
    by_cases isRoot : id = tree.commitRootId
    · rw [isRoot]
      exact .inl (.self tidy.rootExists)
    obtain ⟨parent, foundParent, isChild⟩ := tidy.rooted id block found pruned isRoot
    obtain ⟨-, grows⟩ := tidy.link foundParent isChild found
    rcases ih parent.round (isRound ▸ grows) foundParent rfl with descends | parentPruned
    · exact .inl (.child descends foundParent isChild (blockExists_iff.mpr ⟨block, found⟩))
    · rcases tidy.prunedDown _ _ _ foundParent parentPruned isChild with
        isPruned | same
      · exact absurd isPruned pruned
      · exact absurd same isRoot

end

theorem Tidy.live_of_descends (live : ancestor ∉ tree.prunedBlockIds)
    (descends : tree.Descends ancestor id) : id ∉ tree.prunedBlockIds := by
  induction descends with
  | self _ => exact live
  | child _ found isChild _ ih => exact fun pruned => ih (tidy.pruned_of_child found isChild pruned)

end

/-!
## The walk over the tree
-/

/-- The children of a block in the order in which the walk meets them. -/
def walkChildren (tree : BlockTree) (iterate : List HashValue → List HashValue)
    (id : HashValue) : List HashValue :=
  match tree.getLinkableBlock id with
  | none => []
  | some block => iterate block.children

def walkParent (tree : BlockTree) (id : HashValue) : HashValue :=
  match tree.getLinkableBlock id with
  | none => id
  | some block => block.parentId

def walkRound (tree : BlockTree) (id : HashValue) : Nat :=
  match tree.getLinkableBlock id with
  | none => 0
  | some block => block.round

variable {iterate : List HashValue → List HashValue}

theorem mem_walkChildren (shuffles : ∀ ids, iterate ids ~ ids) :
    child ∈ tree.walkChildren iterate id ↔
      ∃ block, tree.getLinkableBlock id = some block ∧ child ∈ block.children := by
  unfold walkChildren
  cases tree.getLinkableBlock id with
  | none => simp
  | some block => simp [(shuffles block.children).mem_iff]

theorem mem_keys_iff_exists : id ∈ tree.idToBlock.keys ↔ tree.blockExists id = true := by
  rw [← AList.mem_keys, ← AList.lookup_isSome]
  rfl

theorem Tidy.ranked (tidy : tree.Tidy crypto) (shuffles : ∀ ids, iterate ids ~ ids) :
    TreeWalk.Ranked (tree.walkChildren iterate) tree.walkParent
      tree.walkRound tree.idToBlock.keys where
  ofParent := by
    intro id child isChild
    obtain ⟨block, found, isChild⟩ := (mem_walkChildren shuffles).mp isChild
    obtain ⟨childBlock, foundChild, isParent, -⟩ := tidy.linked id block child found isChild
    rw [walkParent, foundChild]
    exact isParent
  grows := by
    intro id child isChild
    obtain ⟨block, found, isChild⟩ := (mem_walkChildren shuffles).mp isChild
    obtain ⟨childBlock, foundChild, -, grows⟩ := tidy.linked id block child found isChild
    rw [walkRound, walkRound, found, foundChild]
    exact grows
  noRepeats := by
    intro id
    unfold walkChildren
    split
    · exact nodup_nil
    · rename_i block found
      exact (shuffles block.children).nodup_iff.mpr (tidy.distinct id block found)
  inside := by
    intro id child isChild
    obtain ⟨block, found, isChild⟩ := (mem_walkChildren shuffles).mp isChild
    obtain ⟨childBlock, foundChild, -, -⟩ := tidy.linked id block child found isChild
    exact mem_keys_iff_exists.mpr (blockExists_iff.mpr ⟨_, foundChild⟩)

/-- Ids with the blocks they stand for. -/
abbrev StackOf (tree : BlockTree) : List HashValue → List LinkableBlock → Prop :=
  List.Forall₂ fun id block => tree.getLinkableBlock id = some block

variable {stack : List LinkableBlock}

/-- Children that are in the tree can be pushed. -/
theorem pushChildren_ok {childIds ids : List HashValue}
    (present : ∀ child ∈ childIds, tree.blockExists child = true)
    (stands : tree.StackOf ids stack) :
    ∃ pushed, tree.pushChildren nextRootId childIds stack = .ok pushed ∧
      tree.StackOf ((childIds.filter fun child => child ≠ nextRootId).reverse ++ ids)
        pushed := by
  induction childIds generalizing ids stack with
  | nil => exact ⟨stack, rfl, stands⟩
  | cons first rest ih =>
    obtain ⟨block, found⟩ := blockExists_iff.mp (present first mem_cons_self)
    have presentRest : ∀ child ∈ rest, tree.blockExists child = true :=
      fun child member => present child (mem_cons_of_mem _ member)
    by_cases same : nextRootId = first
    · obtain ⟨pushed, ran, standsPushed⟩ := ih presentRest stands
      refine ⟨pushed, ?_, ?_⟩
      · rw [pushChildren, if_pos same]
        exact ran
      · simpa [same] using standsPushed
    · obtain ⟨pushed, ran, standsPushed⟩ := ih presentRest (.cons found stands)
      refine ⟨pushed, ?_, ?_⟩
      · rw [pushChildren, if_neg same, found]
        exact ran
      · have differs : first ≠ nextRootId := fun equal => same equal.symm
        simpa [differs] using standsPushed

section

variable (tidy : tree.Tidy crypto)
include tidy

/-- The loop over blocks follows the walk over ids. -/
theorem pruneLoop_ok {fuel : Nat} {ids visited result : List HashValue}
    (shuffles : ∀ ids, iterate ids ~ ids) (stands : tree.StackOf ids stack)
    (walked : TreeWalk.walk (tree.walkChildren iterate) nextRootId fuel ids visited = some result) :
    pruneLoop crypto tree iterate nextRootId fuel stack visited = .ok result := by
  induction fuel generalizing ids visited stack with
  | zero =>
    cases stands with
    | nil =>
      cases walked
      rfl
    | cons _ _ => cases walked
  | succ fuel ih =>
    cases stands with
    | nil =>
      cases walked
      rfl
    | @cons id block ids stack found stands =>
      have present : ∀ child ∈ iterate block.children, tree.blockExists child = true := by
        intro child member
        obtain ⟨childBlock, foundChild, -, -⟩ :=
          tidy.linked id block child found ((shuffles block.children).mem_iff.mp member)
        exact blockExists_iff.mpr ⟨_, foundChild⟩
      obtain ⟨pushed, ran, standsPushed⟩ := pushChildren_ok present stands
      rw [pruneLoop, ran, Fallible.ok_bind, tidy.keyed id block found]
      refine ih standsPushed ?_
      rw [TreeWalk.walk, walkChildren, found] at walked
      exact walked

/-- The blocks to prune are those that the walk from the root visits. -/
theorem Tidy.findBlocksToPrune (shuffles : ∀ ids, iterate ids ~ ids)
    (proper : tree.commitRootId ≠ nextRootId) :
    ∃ visited, findBlocksToPrune crypto tree iterate nextRootId = .ok visited ∧ visited.Nodup ∧
      (∀ id ∈ visited, tree.blockExists id = true) ∧
      TreeWalk.Visits (tree.walkChildren iterate) tree.walkParent
        tree.commitRootId nextRootId visited [] := by
  obtain ⟨root, found⟩ := blockExists_iff.mp tidy.rootExists
  obtain ⟨visited, walked, nodup, inside, visits⟩ :=
    TreeWalk.walk_root (tidy.ranked shuffles) proper (mem_keys_iff_exists.mpr tidy.rootExists)
  refine ⟨visited, ?_, nodup, fun id member => mem_keys_iff_exists.mp (inside id member), visits⟩
  rw [BlockTree.findBlocksToPrune, if_neg fun same => proper same.symm, linkableRoot, found]
  exact pruneLoop_ok tidy shuffles (.cons found .nil) walked

/-!
## The tree after pruning
-/

/-- What is known of the ids that are pruned together. -/
structure Prunes (tree : BlockTree) (nextRootId : HashValue) (visited : List HashValue) : Prop where
  nodup : visited.Nodup
  present : ∀ id ∈ visited, tree.blockExists id = true
  hasRoot : tree.commitRootId ∈ visited
  notNext : nextRootId ∉ visited
  live : ∀ id ∈ visited, tree.Descends tree.commitRootId id
  down : ∀ id block child, tree.getLinkableBlock id = some block → id ∈ visited →
    child ∈ block.children → child = nextRootId ∨ child ∈ visited
  up : ∀ front, front <+: visited →
    ∀ id block child, tree.getLinkableBlock id = some block → child ∈ block.children →
      child ∈ front → child = tree.commitRootId ∨ id ∈ front

theorem Tidy.prunes {visited : List HashValue} (shuffles : ∀ ids, iterate ids ~ ids)
    (nodup : visited.Nodup) (present : ∀ id ∈ visited, tree.blockExists id = true)
    (visits : TreeWalk.Visits (tree.walkChildren iterate) tree.walkParent
      tree.commitRootId nextRootId visited []) :
    tree.Prunes nextRootId visited where
  nodup := nodup
  present := present
  hasRoot := by simpa using visits.hasRoot
  notNext := by simpa using visits.notStop
  live := by
    intro id member
    induction isRound : tree.walkRound id using Nat.strongRecOn generalizing id with
    | ind bound ih =>
      rcases visits.linked id (by simpa using member) with
        isRoot | ⟨parentVisited, isChild⟩
      · rw [isRoot]
        exact .self tidy.rootExists
      · have grows := (tidy.ranked shuffles).grows _ id isChild
        obtain ⟨block, found, isChild⟩ := (mem_walkChildren shuffles).mp isChild
        have descends := ih _ (isRound ▸ grows) _ parentVisited rfl
        exact .child descends found isChild (present id member)
  down := by
    intro id block child found member isChild
    simpa using visits.closed id member child
      ((mem_walkChildren shuffles).mpr ⟨block, found, isChild⟩)
  up := by
    intro front isFront id block child found isChild member
    obtain ⟨childBlock, foundChild, isParent, -⟩ := tidy.linked id block child found isChild
    have parentFirst := visits.parentsFirst front isFront child member
    rw [walkParent, foundChild] at parentFirst
    rw [← isParent]
    exact parentFirst

variable {visited evicted : List HashValue} {final : BlockTree}

section

variable (prunes : tree.Prunes nextRootId visited)
include prunes

/-- Pruned ids, old and new, come after their parents. -/
theorem Tidy.queue_up {front : List HashValue} (isFront : front <+: tree.prunedBlockIds ++ visited)
    (found : tree.getLinkableBlock id = some block) (isChild : child ∈ block.children)
    (member : child ∈ front) : id ∈ front := by
  rcases prefix_or_prefix_of_prefix isFront
    (prefix_append tree.prunedBlockIds visited) with isOld | ⟨new, rfl⟩
  · exact tidy.prunedUp front isOld id block child found isChild member
  · have isNew := (prefix_append_right_inj _).mp isFront
    rcases mem_append.mp member with old | fresh
    · exact mem_append_left _ (tidy.pruned_of_child found isChild old)
    · rcases prunes.up new isNew id block child found isChild fresh with
        rfl | parentFresh
      · exact mem_append_left _ (tidy.aboveRoot id block found isChild)
      · exact mem_append_right _ parentFresh

/-- The children of pruned blocks are pruned, up to the next root. -/
theorem Tidy.queue_down (found : tree.getLinkableBlock id = some block)
    (member : id ∈ tree.prunedBlockIds ++ visited) (isChild : child ∈ block.children) :
    child ∈ tree.prunedBlockIds ++ visited ∨ child = nextRootId := by
  rcases mem_append.mp member with old | fresh
  · rcases tidy.prunedDown id block child found old isChild with
      isPruned | rfl
    · exact .inl (mem_append_left _ isPruned)
    · exact .inl (mem_append_right _ prunes.hasRoot)
  · rcases prunes.down id block child found fresh isChild with
      isNext | isVisited
    · exact .inr isNext
    · exact .inl (mem_append_right _ isVisited)

/-- Blocks below the next root are not pruned. -/
theorem Tidy.not_queued (isLive : tree.Descends tree.commitRootId nextRootId)
    (descends : tree.Descends nextRootId id) : id ∉ tree.prunedBlockIds ++ visited := by
  induction descends with
  | self _ =>
    intro member
    rcases mem_append.mp member with old | fresh
    · exact tidy.live_of_descends tidy.rootLive isLive old
    · exact prunes.notNext fresh
  | child _ found isChild _ ih =>
    exact fun member => ih (tidy.queue_up prunes prefix_rfl found isChild member)

end

end

/-- What was below the old root is visited or below the next root. -/
theorem Prunes.visited_or_below (prunes : tree.Prunes nextRootId visited)
    (descends : tree.Descends tree.commitRootId id) :
    id ∈ visited ∨ tree.Descends nextRootId id := by
  induction descends with
  | self _ => exact .inl prunes.hasRoot
  | child descends found isChild exists_child ih =>
    rcases ih with isVisited | below
    · rcases prunes.down _ _ _ found isVisited isChild with rfl | childVisited
      · exact .inr (.self exists_child)
      · exact .inl childVisited
    · exact .inr (.child below found isChild exists_child)

theorem Tidy.parent_visited (tidy : tree.Tidy crypto) (prunes : tree.Prunes nextRootId visited)
    (isLive : tree.Descends tree.commitRootId nextRootId)
    (found : tree.getLinkableBlock id = some block) (isChild : nextRootId ∈ block.children) :
    id ∈ visited := by
  obtain ⟨nextBlock, foundNext, isParent, grows⟩ := tidy.linked id block nextRootId found isChild
  cases isLive with
  | self _ => exact absurd prunes.hasRoot prunes.notNext
  | child descends foundParent isNextChild _ =>
    obtain ⟨sameParent, -⟩ := tidy.link foundParent isNextChild foundNext
    obtain rfl := isParent.symm.trans sameParent
    rcases prunes.visited_or_below descends with isVisited | below
    · exact isVisited
    · have notAbove := tidy.round_le found below foundNext
      exact absurd grows (not_lt.mpr notAbove)

/-- The tree after the oldest of the pruned ids were removed. -/
structure Evicts (tree final : BlockTree) (nextRootId : HashValue)
    (visited evicted : List HashValue) : Prop where
  queue : tree.prunedBlockIds ++ visited = evicted ++ final.prunedBlockIds
  blocks : ∀ id, final.getLinkableBlock id =
    if id ∈ evicted then none else tree.getLinkableBlock id
  root : final.commitRootId = nextRootId

theorem Evicts.found_iff (evicts : tree.Evicts final nextRootId visited evicted) :
    final.getLinkableBlock id = some block ↔
      id ∉ evicted ∧ tree.getLinkableBlock id = some block := by
  rw [evicts.blocks]
  split <;> simp_all

theorem Evicts.queued_iff (evicts : tree.Evicts final nextRootId visited evicted) :
    id ∈ tree.prunedBlockIds ++ visited ↔ id ∈ evicted ∨ id ∈ final.prunedBlockIds := by
  rw [evicts.queue, mem_append]

section

variable (tidy : tree.Tidy crypto) (prunes : tree.Prunes nextRootId visited)
  (removes : tree.Evicts final nextRootId visited evicted)
  (isLive : tree.Descends tree.commitRootId nextRootId)
include tidy prunes removes isLive

/-- Blocks below the next root stay. -/
theorem Tidy.exists_evicts (descends : tree.Descends nextRootId id) :
    final.blockExists id = true := by
  obtain ⟨block, found⟩ := blockExists_iff.mp descends.blockExists
  refine blockExists_iff.mpr ⟨block, removes.found_iff.mpr ⟨?_, found⟩⟩
  intro isEvicted
  exact tidy.not_queued prunes isLive descends (removes.queued_iff.mpr (.inl isEvicted))

theorem Tidy.evicts : final.Tidy crypto := by
  have isFront : evicted <+: tree.prunedBlockIds ++ visited := by
    rw [removes.queue]
    exact prefix_append _ _
  have childStays : ∀ id block child,
        final.getLinkableBlock id = some block → child ∈ block.children → child ∉ evicted := by
    intro id block child found isChild isEvicted
    obtain ⟨idStays, found⟩ := removes.found_iff.mp found
    exact idStays (tidy.queue_up prunes isFront found isChild isEvicted)
  have nodup : (evicted ++ final.prunedBlockIds).Nodup := by
    rw [← removes.queue, nodup_append]
    refine ⟨tidy.prunedNodup, prunes.nodup, ?_⟩
    rintro id isPruned _ isVisited rfl
    exact tidy.live_of_descends tidy.rootLive (prunes.live id isVisited) isPruned
  refine
    { keyed := ?_, linked := ?_, distinct := ?_, rooted := ?_
      prunedDown := ?_, prunedUp := ?_, aboveRoot := ?_, prunedExist := ?_
      prunedNodup := (nodup_append.mp nodup).2.1
      rootExists := ?_, rootLive := ?_ }
  · intro id block found
    exact tidy.keyed id block (removes.found_iff.mp found).2
  · intro id block child found isChild
    obtain ⟨childBlock, foundChild, isParent, grows⟩ :=
      tidy.linked id block child (removes.found_iff.mp found).2 isChild
    exact ⟨childBlock,
      removes.found_iff.mpr ⟨childStays id block child found isChild, foundChild⟩, isParent, grows⟩
  · intro id block found
    exact tidy.distinct id block (removes.found_iff.mp found).2
  · intro id block found notPruned notRoot
    rw [removes.root] at notRoot
    obtain ⟨stays, found⟩ := removes.found_iff.mp found
    have unqueued : id ∉ tree.prunedBlockIds ++ visited := by
      rw [removes.queued_iff, not_or]
      exact ⟨stays, notPruned⟩
    have notOldRoot : id ≠ tree.commitRootId := by
      rintro rfl
      exact unqueued (mem_append_right _ prunes.hasRoot)
    obtain ⟨parent, foundParent, isChild⟩ :=
      tidy.rooted id block found (fun old => unqueued (mem_append_left _ old)) notOldRoot
    refine ⟨parent, removes.found_iff.mpr ⟨?_, foundParent⟩, isChild⟩
    intro isEvicted
    rcases tidy.queue_down prunes foundParent (isFront.subset isEvicted)
      isChild with isQueued | isNext
    · exact unqueued isQueued
    · exact notRoot isNext
  · intro id block child found isPruned isChild
    obtain ⟨-, foundOld⟩ := removes.found_iff.mp found
    have isQueued := removes.queued_iff.mpr (.inr isPruned)
    rw [removes.root]
    rcases tidy.queue_down prunes foundOld isQueued isChild with
      childQueued | isNext
    · exact .inl ((removes.queued_iff.mp childQueued).resolve_left
        (childStays id block child found isChild))
    · exact .inr isNext
  · intro front isFinalFront id block child found isChild member
    obtain ⟨stays, foundOld⟩ := removes.found_iff.mp found
    have isQueueFront : evicted ++ front <+: tree.prunedBlockIds ++ visited := by
      rw [removes.queue]
      exact (prefix_append_right_inj _).mpr isFinalFront
    have queued := tidy.queue_up prunes isQueueFront foundOld isChild (mem_append_right _ member)
    exact (mem_append.mp queued).resolve_left stays
  · intro id block found isChild
    rw [removes.root] at isChild
    obtain ⟨stays, foundOld⟩ := removes.found_iff.mp found
    have isVisited := tidy.parent_visited prunes isLive foundOld isChild
    exact (removes.queued_iff.mp (mem_append_right _ isVisited)).resolve_left stays
  · intro id isPruned
    have existed : tree.blockExists id = true := by
      rcases mem_append.mp (removes.queued_iff.mpr (.inr isPruned)) with old | fresh
      · exact tidy.prunedExist id old
      · exact prunes.present id fresh
    obtain ⟨block, found⟩ := blockExists_iff.mp existed
    refine blockExists_iff.mpr ⟨block, removes.found_iff.mpr ⟨?_, found⟩⟩
    intro isEvicted
    exact (nodup_append.mp nodup).2.2 id isEvicted id isPruned rfl
  · rw [removes.root]
    exact tidy.exists_evicts prunes removes isLive (.self isLive.blockExists)
  · rw [removes.root]
    intro isPruned
    exact tidy.not_queued prunes isLive (.self isLive.blockExists)
      (removes.queued_iff.mpr (.inr isPruned))

end

/-- Removing blocks takes their entries out of the maps and nothing else. -/
theorem foldl_removeBlock (evicted : List HashValue) (tree : BlockTree) :
    ∃ blocks certs, evicted.foldl removeBlock tree =
      { tree with idToBlock := blocks, idToQuorumCert := certs } ∧
      ∀ id, blocks.lookup id =
        if id ∈ evicted then none else tree.getLinkableBlock id := by
  induction evicted generalizing tree with
  | nil => exact ⟨_, _, rfl, by simp [getLinkableBlock]⟩
  | cons first rest ih =>
    obtain ⟨blocks, certs, removed, lookups⟩ := ih (tree.removeBlock first)
    refine ⟨blocks, certs, removed, fun id => ?_⟩
    rw [lookups, removeBlock]
    by_cases isFirst : id = first
    · rw [isFirst, getLinkableBlock, AList.lookup_erase]
      simp
    · simp [isFirst, getLinkableBlock, AList.lookup_erase_ne]

/-- Queueing ids removes the oldest of them from the tree. -/
theorem processPrunedBlocks_spec (tree : BlockTree) (visited : List HashValue) :
    ∃ evicted blocks certs kept, tree.processPrunedBlocks visited =
      { tree with
        idToBlock := blocks
        idToQuorumCert := certs
        prunedBlockIds := kept } ∧
      (∀ id, blocks.lookup id =
        if id ∈ evicted then none else tree.getLinkableBlock id) ∧
      tree.prunedBlockIds ++ visited = evicted ++ kept ∧
      kept.length ≤ tree.maxPrunedBlocksInMem := by
  obtain ⟨blocks, certs, removed, lookups⟩ := foldl_removeBlock
    ((tree.prunedBlockIds ++ visited).take
      ((tree.prunedBlockIds ++ visited).length - tree.maxPrunedBlocksInMem))
    tree
  refine ⟨_, blocks, certs, _, ?_, lookups, (take_append_drop _ _).symm, ?_⟩
  · rw [processPrunedBlocks, removed]
  · rw [length_drop]
    omega

end BlockTree

end Diem
