import Diem.BlockTreePrune

namespace Diem

open Fallible

/-!
# The calls of the block store keep the tree tidy

Each call of `BlockStore` is followed through `BlockTree`: a new block is attached to its
parent, a certificate moves the highest certified block, and a commit prunes what is not
below the new root.
-/

namespace BlockTree

open List

variable {crypto : Crypto} {tree final : BlockTree} {ancestor id child : HashValue}
  {parent old linked : LinkableBlock} {block : ExecutedBlock}

/-!
## Attaching a block
-/

/-- The tree after a block was attached to its parent. -/
structure Attaches (crypto : Crypto) (tree : BlockTree) (block : ExecutedBlock)
    (parent : LinkableBlock)
    (final : BlockTree) : Prop where
  absent : tree.getLinkableBlock (block.id crypto) = none
  found : tree.getLinkableBlock block.block.parentId = some parent
  blocks : ∀ id, final.getLinkableBlock id =
    if id = block.id crypto then
      some (.new block)
    else if id = block.block.parentId then
      some { parent with children := parent.children ++ [block.id crypto] }
    else
      tree.getLinkableBlock id
  rest : final = { tree with idToBlock := final.idToBlock }

/-- A new block is attached, unless its parent is missing. -/
theorem Tidy.insertBlock (tidy : tree.Tidy crypto)
    (absent : tree.getLinkableBlock (block.id crypto) = none) :
    tree.insertBlock crypto block = .error (.error "Parent block not found") ∨
      ∃ final parent, tree.insertBlock crypto block = .ok final ∧
        Attaches crypto tree block parent final := by
  have noBlock : tree.getBlock (block.id crypto) = none := by
    rw [getBlock, absent]
    rfl
  unfold BlockTree.insertBlock
  rw [noBlock]
  cases isParent : tree.getLinkableBlock block.block.parentId with
  | none => exact .inl rfl
  | some parent =>
    have notChild : block.id crypto ∉ parent.children := by
      intro isChild
      obtain ⟨childBlock, found, -⟩ := tidy.linked _ _ _ isParent isChild
      rw [absent] at found
      cases found
    simp only [LinkableBlock.addChild, require, if_pos notChild, ok_bind]
    refine .inr ⟨_, parent, rfl, absent, isParent, fun id => ?_, rfl⟩
    simp only [getLinkableBlock]
    by_cases isNew : id = block.id crypto
    · rw [isNew, AList.lookup_insert, if_pos rfl]
    · rw [AList.lookup_insert_ne isNew, if_neg isNew]
      by_cases isParentId : id = block.block.parentId
      · rw [isParentId, AList.lookup_insert, if_pos rfl]
      · rw [AList.lookup_insert_ne isParentId, if_neg isParentId]

namespace Attaches

section

variable (attaches : Attaches crypto tree block parent final)
include attaches

theorem parent_ne_new : block.block.parentId ≠ block.id crypto := by
  intro same
  have found := attaches.found
  rw [same, attaches.absent] at found
  cases found

theorem found_parent :
    final.getLinkableBlock block.block.parentId =
      some { parent with children := parent.children ++ [block.id crypto] } := by
  rw [attaches.blocks, if_neg attaches.parent_ne_new, if_pos rfl]

/-- Blocks stay, with all of their children. -/
theorem kept (found : tree.getLinkableBlock id = some old) :
    ∃ linked, final.getLinkableBlock id = some linked ∧ linked.executedBlock = old.executedBlock ∧
      old.children ⊆ linked.children := by
  have notNew : id ≠ block.id crypto := by
    rintro rfl
    rw [attaches.absent] at found
    cases found
  by_cases isParent : id = block.block.parentId
  · subst isParent
    rw [attaches.found] at found
    cases found
    exact ⟨_, attaches.found_parent, rfl, subset_append_left _ _⟩
  · rw [attaches.blocks, if_neg notNew, if_neg isParent]
    exact ⟨old, found, rfl, .refl _⟩

/-- A block was there before, or is the new one; so are its children. -/
theorem cases (found : final.getLinkableBlock id = some linked) :
    (id = block.id crypto ∧ linked = LinkableBlock.new block) ∨
      ∃ old, tree.getLinkableBlock id = some old ∧ linked.executedBlock = old.executedBlock ∧
        (linked.children = old.children ∨
          (id = block.block.parentId ∧ linked.children = old.children ++ [block.id crypto])) := by
  rw [attaches.blocks] at found
  split at found
  · rename_i isNew
    exact Or.inl ⟨isNew, (Option.some.inj found).symm⟩
  split at found
  · rename_i isParent
    cases found
    rw [isParent]
    exact .inr ⟨parent, attaches.found, rfl, .inr ⟨rfl, rfl⟩⟩
  · exact .inr ⟨linked, found, rfl, .inl rfl⟩

/-- A link is an old one, or the one to the new block. -/
theorem child_cases (found : final.getLinkableBlock id = some linked)
    (isChild : child ∈ linked.children) :
    (∃ old, tree.getLinkableBlock id = some old ∧ linked.executedBlock = old.executedBlock ∧
        child ∈ old.children) ∨
      (id = block.block.parentId ∧ child = block.id crypto ∧
        linked.executedBlock = parent.executedBlock) := by
  rcases attaches.cases found with
    ⟨-, rfl⟩ | ⟨old, foundOld, sameBlock, same | ⟨isParent, grown⟩⟩
  · cases isChild
  · exact .inl ⟨old, foundOld, sameBlock, same ▸ isChild⟩
  · rw [grown] at isChild
    rcases mem_append.mp isChild with isOld | isNew
    · exact .inl ⟨old, foundOld, sameBlock, isOld⟩
    · rw [isParent, attaches.found] at foundOld
      cases foundOld
      exact .inr ⟨isParent, mem_singleton.mp isNew, sameBlock⟩

theorem blockExists (existed : tree.blockExists id = true) : final.blockExists id = true := by
  obtain ⟨old, found⟩ := blockExists_iff.mp existed
  obtain ⟨linked, found, -⟩ := attaches.kept found
  exact blockExists_iff.mpr ⟨linked, found⟩

theorem ne_new (existed : tree.blockExists id = true) : id ≠ block.id crypto := by
  rintro rfl
  rw [BlockTree.blockExists, attaches.absent] at existed
  cases existed

end

end Attaches

/-- A block can be attached below a block that is not pruned. -/
theorem Tidy.attaches (tidy : tree.Tidy crypto) (attaches : Attaches crypto tree block parent final)
    (grows : parent.round < block.block.round) (live : block.block.parentId ∉ tree.prunedBlockIds) :
    final.Tidy crypto := by
  obtain ⟨blocks, rfl⟩ : ∃ blocks, final = { tree with idToBlock := blocks } := ⟨_, attaches.rest⟩
  refine
    { keyed := ?_, linked := ?_, distinct := ?_, rooted := ?_
      prunedDown := ?_, prunedUp := ?_, aboveRoot := ?_, prunedExist := ?_
      prunedNodup := tidy.prunedNodup
      rootExists := attaches.blockExists tidy.rootExists
      rootLive := tidy.rootLive }
  · intro id linked found
    rcases attaches.cases found with ⟨isNew, rfl⟩ | ⟨old, foundOld, same, -⟩
    · exact isNew.symm
    · rw [LinkableBlock.id, same]
      exact tidy.keyed id old foundOld
  · intro id linked child found isChild
    rcases attaches.child_cases found isChild with
      ⟨old, foundOld, same, isOld⟩ | ⟨isParent, rfl, same⟩
    · obtain ⟨childBlock, foundChild, parentId, above⟩ := tidy.linked id old child foundOld isOld
      obtain ⟨kept, foundKept, sameChild, -⟩ := attaches.kept foundChild
      refine ⟨kept, foundKept, ?_, ?_⟩
      · rw [LinkableBlock.parentId, sameChild]
        exact parentId
      · rw [LinkableBlock.round, LinkableBlock.round, same, sameChild]
        exact above
    · refine ⟨_, (attaches.blocks _).trans (if_pos rfl), isParent.symm, ?_⟩
      rw [LinkableBlock.round, same]
      exact grows
  · intro id linked found
    rcases attaches.cases found with
      ⟨-, rfl⟩ | ⟨old, foundOld, -, same | ⟨-, grown⟩⟩
    · exact nodup_nil
    · rw [same]
      exact tidy.distinct id old foundOld
    · rw [grown, nodup_append]
      refine ⟨tidy.distinct id old foundOld, nodup_singleton _, ?_⟩
      rintro child isChild _ isNew rfl
      obtain ⟨childBlock, foundChild, -⟩ := tidy.linked id old child foundOld isChild
      exact attaches.ne_new (blockExists_iff.mpr ⟨childBlock, foundChild⟩) (mem_singleton.mp isNew)
  · intro id linked found notPruned notRoot
    rcases attaches.cases found with ⟨rfl, rfl⟩ | ⟨old, foundOld, same, -⟩
    · exact ⟨_, attaches.found_parent, by simp⟩
    · obtain ⟨above, foundAbove, isChild⟩ := tidy.rooted id old foundOld notPruned notRoot
      obtain ⟨kept, foundKept, -, children⟩ := attaches.kept foundAbove
      rw [LinkableBlock.parentId, same]
      exact ⟨kept, foundKept, children isChild⟩
  · intro id linked child found isPruned isChild
    rcases attaches.child_cases found isChild with
      ⟨old, foundOld, -, isOld⟩ | ⟨rfl, -, -⟩
    · exact tidy.prunedDown id old child foundOld isPruned isOld
    · exact absurd isPruned live
  · intro front isFront id linked child found isChild member
    rcases attaches.child_cases found isChild with
      ⟨old, foundOld, -, isOld⟩ | ⟨-, rfl, -⟩
    · exact tidy.prunedUp front isFront id old child foundOld isOld member
    · exact absurd rfl (attaches.ne_new (tidy.prunedExist _ (isFront.subset member)))
  · intro id linked found isChild
    rcases attaches.child_cases found isChild with
      ⟨old, foundOld, -, isOld⟩ | ⟨-, isNew, -⟩
    · exact tidy.aboveRoot id old foundOld isOld
    · exact absurd isNew (attaches.ne_new tidy.rootExists)
  · intro id isPruned
    exact attaches.blockExists (tidy.prunedExist id isPruned)

/-!
## The path to a block
-/

variable {rootId : HashValue} {rootRound fuel : Nat}
  {path result : List ExecutedBlock}

/-- The loop extends the path at its front. -/
theorem pathLoop_suffix (found : tree.pathLoop rootId rootRound fuel id path = some result) :
    path <:+ result := by
  induction fuel generalizing id path with
  | zero => cases found
  | succ fuel ih =>
    rw [pathLoop] at found
    split at found
    · cases found
    split at found
    · split at found
      · cases found
        exact suffix_rfl
      · cases found
    · exact (suffix_cons _ _).trans (ih found)

/-- The last block of a path is the block that it leads to. -/
theorem getLast?_of_path (found : tree.pathFromRootToBlock id rootId rootRound = some result)
    (nonempty : result ≠ []) : result.getLast? = tree.getBlock id := by
  rw [pathFromRootToBlock] at found
  cases isBlock : tree.getBlock id with
  | none => simp [isBlock, pathLoop] at found
  | some block =>
    simp only [isBlock, pathLoop] at found
    split at found
    · split at found
      · cases found
        exact absurd rfl nonempty
      · cases found
    · obtain ⟨front, rfl⟩ := pathLoop_suffix found
      exact getLast?_concat

section

variable (tidy : tree.Tidy crypto)
include tidy

variable {root : LinkableBlock}

section

variable (isRoot : tree.getLinkableBlock rootId = some root) (descends : tree.Descends rootId id)
include isRoot descends

/-- There is a path to every block below the root. -/
theorem Tidy.pathLoop_of_descends (linked : LinkableBlock)
    (found : tree.getLinkableBlock id = some linked) (fuel : Nat) (enough : linked.round < fuel)
    (path : List ExecutedBlock) :
    ∃ result, tree.pathLoop rootId root.round fuel id path = some result := by
  induction descends generalizing linked fuel path with
  | self _ =>
    rw [isRoot] at found
    cases found
    cases fuel with
    | zero => omega
    | succ fuel =>
      refine ⟨path, ?_⟩
      simp [pathLoop, getBlock, isRoot, LinkableBlock.round]
  | child descends foundParent isChild _ ih =>
    obtain ⟨isParent, above⟩ := tidy.link foundParent isChild found
    cases fuel with
    | zero => omega
    | succ fuel =>
      have rootBelow := tidy.round_le foundParent descends isRoot
      obtain ⟨result, returned⟩ := ih _ foundParent fuel (by omega) (linked.executedBlock :: path)
      have notRoot : ¬ linked.executedBlock.block.round ≤ root.round :=
        not_le.mpr (lt_of_le_of_lt rootBelow above)
      refine ⟨result, ?_⟩
      simp only [pathLoop, getBlock, found, Option.map_some, if_neg notRoot]
      rw [← returned, ← isParent]
      rfl

/-- A block below the ordered root has a path that ends with it. -/
theorem Tidy.path_of_descends (found : tree.getLinkableBlock id = some linked)
    (above : root.round < linked.round) :
    ∃ result, tree.pathFromRootToBlock id rootId root.round = some result ∧
      result.getLast? = some linked.executedBlock := by
  have isBlock : tree.getBlock id = some linked.executedBlock := by
    rw [getBlock, found]
    rfl
  obtain ⟨result, returned⟩ := tidy.pathLoop_of_descends isRoot descends linked found
    (linked.round + 1) (Nat.lt_succ_self _) []
  have path : tree.pathFromRootToBlock id rootId root.round = some result := by
    rw [pathFromRootToBlock, isBlock]
    exact returned
  refine ⟨result, path, ?_⟩
  rw [← isBlock]
  refine getLast?_of_path path ?_
  rintro rfl
  have notRoot : ¬ linked.executedBlock.block.round ≤ root.round := not_le.mpr above
  simp only [pathLoop, isBlock, if_neg notRoot] at returned
  simpa using pathLoop_suffix returned

end

/-!
## The invariant
-/

/-- Rounds grow strictly from a block to the blocks below it. -/
theorem Tidy.round_lt {ancestorBlock : LinkableBlock} (descends : tree.Descends ancestor id)
    (proper : id ≠ ancestor) (isAncestor : tree.getLinkableBlock ancestor = some ancestorBlock)
    (found : tree.getLinkableBlock id = some linked) : ancestorBlock.round < linked.round := by
  cases descends with
  | self _ => exact absurd rfl proper
  | child descends foundParent isChild _ =>
    obtain ⟨-, grows⟩ := tidy.link foundParent isChild found
    exact lt_of_le_of_lt (tidy.round_le foundParent descends isAncestor) grows

theorem Tidy.congr (sameBlocks : final.idToBlock = tree.idToBlock)
    (sameRoot : final.commitRootId = tree.commitRootId)
    (samePruned : final.prunedBlockIds = tree.prunedBlockIds) : final.Tidy crypto := by
  cases tree
  cases final
  cases sameBlocks
  cases sameRoot
  cases samePruned
  exact { tidy with }

end

/-- The tree is tidy, and the certificates fit its blocks. -/
structure Sound (crypto : Crypto) (certified : List Nat) (tree : BlockTree) : Prop where
  tidy : tree.Tidy crypto
  highestExists : tree.blockExists tree.highestCertifiedBlockId = true
  ledgerRound : ∀ root, tree.getLinkableBlock tree.commitRootId = some root →
    tree.highestLedgerInfo.commitInfo.round ≤ root.round
  pruneBound : tree.prunedBlockIds.length ≤ tree.maxPrunedBlocksInMem
  certifies : tree.highestQuorumCert.certifiedBlock.id = tree.highestCertifiedBlockId
  highest : ∀ block, tree.getBlock tree.highestCertifiedBlockId = some block →
    block.block.round ∈ certified ∧ ∀ round ∈ certified, round ≤ block.block.round

/-- The tree is sound, and the root of ordering is in it. -/
structure Valid (crypto : Crypto) (certified : List Nat) (tree : BlockTree) : Prop where
  sound : tree.Sound crypto certified
  orderedExists : tree.blockExists tree.orderedRootId = true

/-- A call returns a valid tree, or returns an error; it does not panic. -/
def Settles (crypto : Crypto) (certified : List Nat) : Fallible BlockTree → Prop
  | .ok final => final.Valid crypto certified
  | .error (.error _) => True
  | .error (.panic _) => False

variable {certified : List Nat}

theorem getBlock_eq_some_iff :
    tree.getBlock id = some block ↔
      ∃ linked, tree.getLinkableBlock id = some linked ∧ linked.executedBlock = block := by
  rw [getBlock, Option.map_eq_some_iff]

/-- Blocks that stay where they are keep their contents. -/
theorem Attaches.getBlock (attaches : Attaches crypto tree block parent final)
    (existed : tree.blockExists id = true) : final.getBlock id = tree.getBlock id := by
  obtain ⟨old, found⟩ := blockExists_iff.mp existed
  obtain ⟨linked, foundLinked, same, -⟩ := attaches.kept found
  rw [BlockTree.getBlock, BlockTree.getBlock, found, foundLinked]
  exact congrArg some same

section

variable (valid : tree.Valid crypto certified)
include valid

/-- A new block can be attached to a sound tree. -/
theorem Valid.attaches (attaches : Attaches crypto tree block parent final)
    (grows : parent.round < block.block.round) (live : block.block.parentId ∉ tree.prunedBlockIds) :
    final.Valid crypto certified := by
  have sound := valid.sound
  obtain ⟨blocks, rfl⟩ : ∃ blocks, final = { tree with idToBlock := blocks } := ⟨_, attaches.rest⟩
  refine ⟨⟨sound.tidy.attaches attaches grows live, attaches.blockExists sound.highestExists, ?_,
    sound.pruneBound, sound.certifies, ?_⟩, attaches.blockExists valid.orderedExists⟩
  · intro root found
    obtain ⟨old, foundOld⟩ := blockExists_iff.mp sound.tidy.rootExists
    obtain ⟨kept, foundKept, same, -⟩ := attaches.kept foundOld
    rw [found] at foundKept
    cases foundKept
    rw [LinkableBlock.round, same]
    exact sound.ledgerRound old foundOld
  · intro highest found
    rw [attaches.getBlock sound.highestExists] at found
    exact sound.highest highest found

theorem Valid.recordQuorumCert (cert : QuorumCert) :
    (tree.recordQuorumCert cert).Valid crypto certified := by
  obtain ⟨⟨tidy, highestExists, ledgerRound, pruneBound, certifies, highest⟩,
    orderedExists⟩ := valid
  exact ⟨⟨tidy.congr rfl rfl rfl, highestExists, ledgerRound, pruneBound,
    certifies, highest⟩, orderedExists⟩

/-- The certificate of a block in the tree, which has the round of the block. -/
theorem Valid.insertQuorumCert {cert : QuorumCert}
    (found : tree.getBlock cert.certifiedBlock.id = some block)
    (sameRound : block.block.round = cert.certifiedBlock.round) :
    Settles crypto (certified ++ [cert.certifiedBlock.round])
      (tree.insertQuorumCert crypto cert) := by
  have sound := valid.sound
  have tidy := sound.tidy
  obtain ⟨highestLinked, foundHighest⟩ := blockExists_iff.mp sound.highestExists
  have isHighest : tree.getBlock tree.highestCertifiedBlockId = some highestLinked.executedBlock :=
    getBlock_eq_some_iff.mpr ⟨highestLinked, foundHighest, rfl⟩
  obtain ⟨isCertified, isMaximal⟩ := sound.highest _ isHighest
  obtain ⟨linked, foundLinked, rfl⟩ := getBlock_eq_some_iff.mp found
  have isId := tidy.keyed _ _ foundLinked
  have expected : tree.highestCertifiedBlock = .ok highestLinked.executedBlock := by
    rw [highestCertifiedBlock, isHighest]
    rfl
  unfold BlockTree.insertQuorumCert
  simp only [found, expected, ok_bind]
  split
  · rename_i higher
    apply Valid.recordQuorumCert
    refine ⟨⟨tidy.congr rfl rfl rfl, ?_, sound.ledgerRound,
      sound.pruneBound, isId.symm, ?_⟩, valid.orderedExists⟩
    · change tree.blockExists (linked.id crypto) = true
      rw [isId]
      exact blockExists_iff.mpr ⟨linked, foundLinked⟩
    · intro block isBlock
      change tree.getBlock (linked.id crypto) = some block at isBlock
      rw [isId, found] at isBlock
      cases isBlock
      refine ⟨?_, fun round member => ?_⟩
      · rw [sameRound]
        simp
      · rcases mem_append.mp member with old | new
        · exact (isMaximal round old).trans higher.le
        · rw [mem_singleton.mp new, sameRound]
  · rename_i notHigher
    refine .recordQuorumCert ⟨⟨tidy, sound.highestExists, sound.ledgerRound, sound.pruneBound,
      sound.certifies, ?_⟩, valid.orderedExists⟩ cert
    intro block isBlock
    rw [isHighest] at isBlock
    cases isBlock
    refine ⟨mem_append_left _ isCertified, fun round member => ?_⟩
    rcases mem_append.mp member with old | new
    · exact isMaximal round old
    · rw [mem_singleton.mp new, ← sameRound]
      exact not_lt.mp notHigher

end

/-!
## Committing
-/

/-- The proof commits a block properly below the root. -/
structure Committable (tree : BlockTree) (proof : LedgerInfoWithSignatures) : Prop where
  proper : proof.commitInfo.id ≠ tree.commitRootId
  below : tree.Descends tree.commitRootId proof.commitInfo.id
  sameRound : ∀ block, tree.getBlock proof.commitInfo.id = some block →
    block.block.round = proof.commitInfo.round

variable {iterate : List HashValue → List HashValue}
  {proof : LedgerInfoWithSignatures} {blocks : List ExecutedBlock}

/-- The callback of a commit keeps the tree sound, and what is below the new root. -/
theorem Sound.commitCallback (sound : tree.Sound crypto certified)
    (shuffles : ∀ ids, iterate ids ~ ids) (committable : tree.Committable proof)
    (keepsHighest : tree.Descends proof.commitInfo.id tree.highestCertifiedBlockId)
    (isLast : blocks.getLast? = some block) (isCommitted : block.id crypto = proof.commitInfo.id) :
    ∃ final, commitCallback crypto iterate tree blocks proof = .ok final ∧
      final.Sound crypto certified ∧
      final.orderedRootId = tree.orderedRootId ∧
      ∀ id, tree.Descends proof.commitInfo.id id → final.blockExists id = true := by
  have tidy := sound.tidy
  obtain ⟨root, foundRoot⟩ := blockExists_iff.mp tidy.rootExists
  obtain ⟨next, foundNext⟩ := blockExists_iff.mp committable.below.blockExists
  obtain ⟨visited, walked, nodup, present, visits⟩ :=
    tidy.findBlocksToPrune shuffles committable.proper.symm
  have prunes := tidy.prunes shuffles nodup present visits
  obtain ⟨evicted, keptBlocks, certs, kept, processed, lookups, queue, bound⟩ :=
    processPrunedBlocks_spec tree visited
  have higher : tree.highestLedgerInfo.commitInfo.round < proof.commitInfo.round := by
    have rootBelow := tidy.round_lt committable.below committable.proper foundRoot foundNext
    have isNext := committable.sameRound _ (getBlock_eq_some_iff.mpr ⟨next, foundNext, rfl⟩)
    exact isNext ▸ lt_of_le_of_lt (sound.ledgerRound root foundRoot) rootBelow
  let final : BlockTree :=
    { tree with
      idToBlock := keptBlocks
      idToQuorumCert := certs
      prunedBlockIds := kept
      highestLedgerInfo := proof
      commitRootId := proof.commitInfo.id }
  have evicts : tree.Evicts final proof.commitInfo.id visited evicted := ⟨queue, lookups, rfl⟩
  have stays : ∀ id, tree.Descends proof.commitInfo.id id → final.blockExists id = true :=
    fun _ => tidy.exists_evicts prunes evicts committable.below
  refine ⟨final, ?_, ?_, rfl, stays⟩
  · have isRoot : tree.commitRoot = .ok root.executedBlock := by
      rw [commitRoot, getBlock, foundRoot]
      rfl
    have nextStays := stays _ (.self committable.below.blockExists)
    unfold BlockTree.commitCallback
    rw [isLast, isRoot]
    simp only [expect, ok_bind, isCommitted, walked]
    rw [processed, updateHighestLedgerInfo, if_pos higher, updateCommitRoot]
    refine check_eq_ok_iff.mpr ⟨?_, rfl⟩
    rw [require_eq_ok_iff]
    exact nextStays
  · refine ⟨tidy.evicts prunes evicts committable.below,
      stays _ keepsHighest, ?_, bound, sound.certifies, ?_⟩
    · intro found isFound
      obtain ⟨-, wasFound⟩ := evicts.found_iff.mp isFound
      exact (committable.sameRound _ (getBlock_eq_some_iff.mpr ⟨found, wasFound, rfl⟩)).ge
    · intro highest isHighest
      obtain ⟨linked, isFound, rfl⟩ := getBlock_eq_some_iff.mp isHighest
      obtain ⟨-, wasFound⟩ := evicts.found_iff.mp isFound
      exact sound.highest _ (getBlock_eq_some_iff.mpr ⟨linked, wasFound, rfl⟩)

end BlockTree

end Diem
