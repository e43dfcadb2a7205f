import Diem.BlockTreeInvariant
import Diem.SymbolicCrypto

namespace Diem

open BlockStore BlockTree

open Fallible (ensure ok_bind)
open Crypto (symbolic)

/-!
# Runs of the block store

The calls of a block store are made one after the other, until one panics.  The tree stays
well formed as long as no block is attached below a pruned one, and every commit keeps the
highest certified block below the new root.  Without the first condition a block is lost
to pruning; without the second the highest certified block can be removed from the tree.
-/

open List

/-- A call of the block store, with the order in which it iterates over children. -/
inductive StoreCall where
  | executeAndInsertBlock (block : ExecutedBlock)
  | insertSingleQuorumCert (cert : QuorumCert)
  | commit (iterate : List HashValue → List HashValue) (finalityProof : LedgerInfoWithSignatures)
      (atOnce : Bool)
  | commitCallback (iterate : List HashValue → List HashValue) (blocksToCommit : List ExecutedBlock)
      (commitProof : LedgerInfoWithSignatures)

namespace StoreCall

variable (crypto : Crypto) (tree : BlockTree)

def process : StoreCall → Fallible BlockTree
  | executeAndInsertBlock block => BlockStore.executeAndInsertBlock crypto tree block
  | insertSingleQuorumCert cert => BlockStore.insertSingleQuorumCert crypto tree cert
  | commit iterate finalityProof atOnce =>
    BlockStore.commit crypto iterate tree finalityProof atOnce
  | commitCallback iterate blocksToCommit commitProof =>
    tree.commitCallback crypto iterate blocksToCommit commitProof

def certifiedRounds : StoreCall → List Nat
  | insertSingleQuorumCert cert => [cert.certifiedBlock.round]
  | _ => []

/-- The call is one that a block store makes. -/
def Issued : StoreCall → Prop
  | executeAndInsertBlock block =>
    ∀ parent, tree.getBlock block.block.parentId = some parent →
      parent.block.round < block.block.round
  | insertSingleQuorumCert _ => True
  | commit iterate finalityProof atOnce =>
    (∀ ids, iterate ids ~ ids) ∧
    tree.Descends tree.orderedRootId finalityProof.commitInfo.id ∧
    (atOnce = true → tree.Committable finalityProof)
  | commitCallback iterate blocksToCommit commitProof =>
    (∀ ids, iterate ids ~ ids) ∧
    blocksToCommit.getLast?.map (ExecutedBlock.id crypto) = some commitProof.commitInfo.id ∧
    tree.Committable commitProof ∧
    tree.Descends commitProof.commitInfo.id tree.orderedRootId

/--
The call attaches no new block below a pruned one, and it keeps the highest certified block
below the root.
-/
def KeepsForks : StoreCall → Prop
  | executeAndInsertBlock block =>
    tree.getBlock (block.id crypto) = none → block.block.parentId ∉ tree.prunedBlockIds
  | insertSingleQuorumCert _ => True
  | commit _ finalityProof atOnce =>
    atOnce = true → tree.Descends finalityProof.commitInfo.id tree.highestCertifiedBlockId
  | commitCallback _ _ commitProof =>
    tree.Descends commitProof.commitInfo.id tree.highestCertifiedBlockId

end StoreCall

variable {tree : BlockTree} {block root : ExecutedBlock}
  {proof rootCommitLedgerInfo : LedgerInfoWithSignatures} {call : StoreCall}
  {calls : List StoreCall}

namespace BlockTree

variable {crypto : Crypto} {certified : List Nat} {cert : QuorumCert}
  {iterate : List HashValue → List HashValue} {blocks : List ExecutedBlock}

section

variable (valid : tree.Valid crypto certified)
include valid

theorem Valid.orderedRoot :
    ∃ root, tree.getLinkableBlock tree.orderedRootId = some root ∧
      tree.orderedRoot = .ok root.executedBlock := by
  obtain ⟨root, found⟩ := blockExists_iff.mp valid.orderedExists
  refine ⟨root, found, ?_⟩
  rw [BlockTree.orderedRoot, getBlock, found]
  rfl

/-- A block attached below a block that is not pruned. -/
theorem Valid.executeAndInsertBlock
    (issued : (StoreCall.executeAndInsertBlock block).Issued crypto tree)
    (keeps : (StoreCall.executeAndInsertBlock block).KeepsForks crypto tree) :
    Settles crypto certified (executeAndInsertBlock crypto tree block) := by
  obtain ⟨root, -, isRoot⟩ := valid.orderedRoot
  unfold BlockStore.executeAndInsertBlock
  cases isNew : tree.getBlock (block.id crypto) with
  | some existing => exact valid
  | none =>
    have absent : tree.getLinkableBlock (block.id crypto) = none := by simpa [getBlock] using isNew
    simp only [isRoot, ok_bind, ensure]
    split
    · simp only [ok_bind]
      rcases valid.sound.tidy.insertBlock absent with
        missing | ⟨final, parent, inserted, attaches⟩
      · rw [missing]
        trivial
      · have grows := issued _ (getBlock_eq_some_iff.mpr ⟨parent, attaches.found, rfl⟩)
        rw [inserted]
        exact valid.attaches attaches grows (keeps isNew)
    · trivial

/-- A certificate that fits its block has the round of the block. -/
theorem Valid.insertSingleQuorumCert :
    Settles crypto (certified ++ [cert.certifiedBlock.round])
      (insertSingleQuorumCert crypto tree cert) := by
  unfold BlockStore.insertSingleQuorumCert
  cases found : tree.getBlock cert.certifiedBlock.id with
  | none => trivial
  | some executed =>
    simp only [ensure]
    split
    · rename_i isMatch
      refine valid.insertQuorumCert found ?_
      simp only [BlockInfo.matchOrderedOnly, Bool.and_eq_true, decide_eq_true_eq] at isMatch
      exact isMatch.1.1.2
    · trivial

/-- The blocks to commit end with the block of the proof. -/
theorem Valid.blocksToCommit (below : tree.Descends tree.orderedRootId proof.commitInfo.id) :
    (∃ message, blocksToCommit tree proof = .error (.error message)) ∨
      ∃ block path, blocksToCommit tree proof = .ok (block, path) ∧
        tree.getBlock proof.commitInfo.id = some block ∧
        path.getLast? = some block := by
  obtain ⟨root, foundRoot, isRoot⟩ := valid.orderedRoot
  obtain ⟨linked, found⟩ := blockExists_iff.mp below.blockExists
  have isBlock : tree.getBlock proof.commitInfo.id = some linked.executedBlock :=
    getBlock_eq_some_iff.mpr ⟨linked, found, rfl⟩
  unfold BlockStore.blocksToCommit
  simp only [isBlock, isRoot, ok_bind, ensure, pathFromOrderedRoot]
  split
  · rename_i above
    obtain ⟨path, isPath, isLast⟩ := valid.sound.tidy.path_of_descends foundRoot below found above
    have onPath : tree.pathFromRootToBlock proof.commitInfo.id tree.orderedRootId
          root.executedBlock.block.round = some path := isPath
    refine Or.inr ⟨linked.executedBlock, path, ?_, rfl, isLast⟩
    simp only [onPath, ok_bind, pure, Except.pure]
    refine Fallible.check_eq_ok_iff.mpr ⟨?_, rfl⟩
    cases path with
    | nil => cases isLast
    | cons _ _ => rfl
  · exact Or.inl ⟨_, rfl⟩

end

/-- A commit makes the block of the proof the root of ordering. -/
theorem Valid.updateOrderedRoot (sound : tree.Sound crypto certified) (id : HashValue)
    (existing : tree.blockExists id = true) :
    Settles crypto certified (tree.updateOrderedRoot id) := by
  simp only [BlockTree.updateOrderedRoot, Fallible.require, existing, if_true, ok_bind]
  exact ⟨{ sound with tidy := sound.tidy.congr rfl rfl rfl }, existing⟩

section

variable (valid : tree.Valid crypto certified)
include valid

/-- A commit of a block below the root of ordering. -/
theorem Valid.commit {atOnce : Bool}
    (issued : (StoreCall.commit iterate proof atOnce).Issued crypto tree)
    (keeps : (StoreCall.commit iterate proof atOnce).KeepsForks crypto tree) :
    Settles crypto certified (commit crypto iterate tree proof atOnce) := by
  obtain ⟨shuffles, below, committable⟩ := issued
  unfold BlockStore.commit
  rcases valid.blocksToCommit below with
    ⟨message, failed⟩ | ⟨block, path, found, isBlock, isLast⟩
  · rw [failed]
    trivial
  obtain ⟨linked, isLinked, rfl⟩ := getBlock_eq_some_iff.mp isBlock
  have isId : linked.executedBlock.id crypto = proof.commitInfo.id :=
    valid.sound.tidy.keyed _ _ isLinked
  simp only [found, ok_bind, isId]
  cases atOnce with
  | false => exact Valid.updateOrderedRoot valid.sound _ below.blockExists
  | true =>
    obtain ⟨final, committed, sound, -, stays⟩ :=
      valid.sound.commitCallback shuffles (committable rfl) (keeps rfl) isLast isId
    simp only [if_true, committed, ok_bind]
    exact Valid.updateOrderedRoot sound _ (stays _ (.self below.blockExists))

/-- A commit that is reported later. -/
theorem Valid.commitCallback
    (issued : (StoreCall.commitCallback iterate blocks proof).Issued crypto tree)
    (keeps : (StoreCall.commitCallback iterate blocks proof).KeepsForks crypto tree) :
    Settles crypto certified (tree.commitCallback crypto iterate blocks proof) := by
  obtain ⟨shuffles, isLast, committable, ordered⟩ := issued
  obtain ⟨block, isLast, isId⟩ := Option.map_eq_some_iff.mp isLast
  obtain ⟨final, committed, sound, sameOrdered, stays⟩ :=
    valid.sound.commitCallback shuffles committable keeps isLast isId
  rw [committed]
  refine ⟨sound, ?_⟩
  rw [sameOrdered]
  exact stays _ ordered

/-- Every call that keeps the forks keeps the tree valid. -/
theorem Valid.process (issued : call.Issued crypto tree) (keeps : call.KeepsForks crypto tree) :
    Settles crypto (certified ++ call.certifiedRounds) (call.process crypto tree) := by
  cases call with
  | executeAndInsertBlock block =>
    simp only [StoreCall.certifiedRounds, append_nil]
    exact valid.executeAndInsertBlock issued keeps
  | insertSingleQuorumCert cert => exact valid.insertSingleQuorumCert
  | commit iterate proof atOnce =>
    simp only [StoreCall.certifiedRounds, append_nil]
    exact valid.commit issued keeps
  | commitCallback iterate blocks proof =>
    simp only [StoreCall.certifiedRounds, append_nil]
    exact valid.commitCallback issued keeps

end

theorem Valid.new {rootQuorumCert rootOrderedCert : QuorumCert} {maxPrunedBlocksInMem : Nat}
    (created : new crypto root rootQuorumCert rootOrderedCert
      rootCommitLedgerInfo maxPrunedBlocksInMem = .ok tree)
    (certifiesRoot : rootQuorumCert.certifiedBlock.id = root.id crypto)
    (committedRound : rootCommitLedgerInfo.commitInfo.round ≤ root.block.round) :
    tree.Valid crypto [root.block.round] := by
  obtain ⟨-, created⟩ := Fallible.check_eq_ok_iff.mp created
  cases created
  have only : ∀ id linked, ((∅ : IdMap LinkableBlock).insert (root.id crypto)
    (.new root)).lookup id = some linked →
      id = root.id crypto ∧ linked = LinkableBlock.new root := by
    intro id linked found
    by_cases isRoot : id = root.id crypto
    · rw [isRoot, AList.lookup_insert] at found
      exact ⟨isRoot, (Option.some.inj found).symm⟩
    · rw [AList.lookup_insert_ne isRoot, AList.lookup_empty] at found
      cases found
  have exists_root : (((∅ : IdMap LinkableBlock).insert (root.id crypto)
        (.new root)).lookup (root.id crypto)).isSome = true := by
    rw [AList.lookup_insert]
    rfl
  refine ⟨⟨⟨?_, ?_, ?_, ?_, ?_, ?_, ?_, ?_, nodup_nil, exists_root, ?_⟩,
    exists_root, ?_, Nat.zero_le _, certifiesRoot, ?_⟩, exists_root⟩
  · intro id linked found
    obtain ⟨rfl, rfl⟩ := only id linked found
    rfl
  · intro id linked child found isChild
    obtain ⟨rfl, rfl⟩ := only id linked found
    cases isChild
  · intro id linked found
    obtain ⟨rfl, rfl⟩ := only id linked found
    exact nodup_nil
  · intro id linked found _ notRoot
    exact absurd (only id linked found).1 notRoot
  · intro id linked child _ isPruned
    cases isPruned
  · intro front isFront id linked child _ _ member
    rw [prefix_nil.mp isFront] at member
    cases member
  · intro id linked found isChild
    obtain ⟨rfl, rfl⟩ := only id linked found
    cases isChild
  · intro id isPruned
    cases isPruned
  · exact not_mem_nil
  · intro linked found
    obtain ⟨-, rfl⟩ := only _ linked found
    exact committedRound
  · intro block found
    obtain ⟨linked, isLinked, rfl⟩ := getBlock_eq_some_iff.mp found
    obtain ⟨-, rfl⟩ := only _ linked isLinked
    simp [LinkableBlock.new]

end BlockTree

/-- A run of the block store, with the rounds that were certified. -/
structure StoreTrace where
  tree : BlockTree
  failure : Option Failure
  certified : List Nat

namespace StoreTrace

/-- The run before the first call. -/
def start (root : ExecutedBlock) (tree : BlockTree) : StoreTrace where
  tree
  failure := none
  certified := [root.block.round]

variable (crypto : Crypto) (trace : StoreTrace)

/-- One call; an error leaves the tree as it is, a panic ends the run. -/
def advance (call : StoreCall) : StoreTrace :=
  if trace.failure.isSome then
    trace
  else
    match call.process crypto trace.tree with
    | .ok tree =>
      { trace with
        tree
        certified := trace.certified ++ call.certifiedRounds }
    | .error (.error _) => trace
    | .error (.panic message) => { trace with failure := some (.panic message) }

def run (calls : List StoreCall) : StoreTrace :=
  calls.foldl (advance crypto) trace

/-- Every call meets a condition on the tree that it is made on. -/
def Meets (condition : BlockTree → StoreCall → Prop) (crypto : Crypto) (trace : StoreTrace) :
    List StoreCall → Prop
  | [] => True
  | call :: calls =>
    condition trace.tree call ∧ Meets condition crypto (trace.advance crypto call) calls

/-- Every call is one that a block store makes. -/
def Issued (calls : List StoreCall) : Prop :=
  Meets (fun tree call => call.Issued crypto tree) crypto trace calls

/-- Every call keeps the forks that the tree still needs. -/
def KeepsForks (calls : List StoreCall) : Prop :=
  Meets (fun tree call => call.KeepsForks crypto tree) crypto trace calls

/--
The roots and the highest certified block are in the tree, links to children agree with
the parents, every block is below the root or pruned, the pruned ids are not too many, and
the highest certificate is for the block of the highest certified round.
-/
structure WellFormed (trace : StoreTrace) : Prop where
  noFailure : trace.failure = none
  commitRoot : trace.tree.blockExists trace.tree.commitRootId = true
  orderedRoot : trace.tree.blockExists trace.tree.orderedRootId = true
  highestBlock : trace.tree.blockExists trace.tree.highestCertifiedBlockId = true
  childLinks : ∀ id block child,
    trace.tree.getLinkableBlock id = some block → child ∈ block.children →
      ∃ childBlock, trace.tree.getLinkableBlock child = some childBlock ∧ childBlock.parentId = id
  covered : ∀ id, trace.tree.blockExists id = true →
    trace.tree.Descends trace.tree.commitRootId id ∨ id ∈ trace.tree.prunedBlockIds
  pruneBound : trace.tree.prunedBlockIds.length ≤ trace.tree.maxPrunedBlocksInMem
  certifies : trace.tree.highestQuorumCert.certifiedBlock.id = trace.tree.highestCertifiedBlockId
  highestRound : ∀ block, trace.tree.getBlock trace.tree.highestCertifiedBlockId = some block →
    block.block.round ∈ trace.certified ∧ ∀ round ∈ trace.certified, round ≤ block.block.round

variable {crypto : Crypto} {trace : StoreTrace}

section

variable (noFailure : trace.failure = none)
  (valid : trace.tree.Valid crypto trace.certified)
include noFailure valid

theorem wellFormed_of_valid : trace.WellFormed := by
  have sound := valid.sound
  refine ⟨noFailure, sound.tidy.rootExists, valid.orderedExists, sound.highestExists, ?_, ?_,
    sound.pruneBound, sound.certifies, sound.highest⟩
  · intro id block child found isChild
    obtain ⟨childBlock, foundChild, isParent, -⟩ := sound.tidy.linked id block child found isChild
    exact ⟨childBlock, foundChild, isParent⟩
  · intro id existing
    obtain ⟨block, found⟩ := blockExists_iff.mp existing
    exact sound.tidy.covered found

/-- One call keeps the tree valid and does not panic. -/
theorem advance_valid (issued : call.Issued crypto trace.tree)
    (keeps : call.KeepsForks crypto trace.tree) :
    (trace.advance crypto call).failure = none ∧
      (trace.advance crypto call).tree.Valid crypto (trace.advance crypto call).certified := by
  have settles := valid.process issued keeps
  have running : ¬ trace.failure.isSome = true := by simp [noFailure]
  rw [advance, if_neg running]
  cases result : call.process crypto trace.tree with
  | ok tree =>
    rw [result] at settles
    exact ⟨noFailure, settles⟩
  | error failure =>
    rw [result] at settles
    cases failure with
    | error message => exact ⟨noFailure, valid⟩
    | panic message => exact settles.elim

theorem run_valid (issued : trace.Issued crypto calls) (keeps : trace.KeepsForks crypto calls) :
    (trace.run crypto calls).failure = none ∧
      (trace.run crypto calls).tree.Valid crypto (trace.run crypto calls).certified := by
  induction calls generalizing trace with
  | nil => exact ⟨noFailure, valid⟩
  | cons call calls ih =>
    obtain ⟨noFailure, valid⟩ := advance_valid noFailure valid issued.1 keeps.1
    exact ih noFailure valid issued.2 keeps.2

end

/--
The tree is well formed after every run that attaches no block below a pruned one and
commits only blocks that the highest certified block is below.
-/
theorem run_wellFormed
    {root : ExecutedBlock}
    {rootQuorumCert rootOrderedCert : QuorumCert}
    {rootCommitLedgerInfo : LedgerInfoWithSignatures}
    {maxPrunedBlocksInMem : Nat}
    {tree : BlockTree}
    {calls : List StoreCall}
    (created : new crypto root rootQuorumCert rootOrderedCert
      rootCommitLedgerInfo maxPrunedBlocksInMem = .ok tree)
    (certifiesRoot : rootQuorumCert.certifiedBlock.id = root.id crypto)
    (committedRound : rootCommitLedgerInfo.commitInfo.round ≤ root.block.round)
    (issued : (start root tree).Issued crypto calls)
    (keeps : (start root tree).KeepsForks crypto calls) :
    ((start root tree).run crypto calls).WellFormed := by
  have valid := BlockTree.Valid.new created certifiesRoot committedRound
  have running : (start root tree).failure = none := rfl
  obtain ⟨noFailure, valid⟩ := run_valid running valid issued keeps
  exact wellFormed_of_valid noFailure valid

/-!
## Forks that are lost
-/

/-- A certificate of the given block that commits it as well. -/
def plainCert (info : BlockInfo) : QuorumCert where
  voteData := { proposed := info, parent := .empty }
  signedLedgerInfo :=
    { ledgerInfo :=
        { commitInfo := info, consensusDataHash := .zero }
      signatures := .empty }

/-- A block with an empty result on top of the certified one. -/
def plainBlock (parent : BlockInfo) (round : Nat) : ExecutedBlock where
  block :=
    { blockData :=
        { epoch := 1
          round
          timestampUsecs := round
          quorumCert := plainCert parent
          blockType := .nilBlock }
      signature := none }
  stateComputeResult :=
    { rootHash := .atom round
      numLeaves := 0
      epochState := none
      computeStatus := [] }

def certOf (block : ExecutedBlock) : QuorumCert :=
  plainCert (block.blockInfo symbolic)

/-- The block of round 0. -/
def plainRoot : ExecutedBlock := plainBlock BlockInfo.empty 0

/-- A block of the given round on top of another one. -/
def blockOn (parent : ExecutedBlock) (round : Nat) : ExecutedBlock :=
  plainBlock (parent.blockInfo symbolic) round

variable (maxPrunedBlocksInMem : Nat)

/-- The tree that holds the root only. -/
def plainTree : BlockTree where
  idToBlock := (∅ : IdMap LinkableBlock).insert (plainRoot.id symbolic) (.new plainRoot)
  orderedRootId := plainRoot.id symbolic
  commitRootId := plainRoot.id symbolic
  highestCertifiedBlockId := plainRoot.id symbolic
  highestQuorumCert := certOf plainRoot
  highestOrderedCert := certOf plainRoot
  highestLedgerInfo := (certOf plainRoot).signedLedgerInfo
  idToQuorumCert :=
    (∅ : IdMap QuorumCert).insert (certOf plainRoot).certifiedBlock.id (certOf plainRoot)
  prunedBlockIds := []
  maxPrunedBlocksInMem

/-- Two blocks on the root, the first of which is committed after other calls. -/
def forkAndCommit (between : List StoreCall) : List StoreCall :=
  [.executeAndInsertBlock (blockOn plainRoot 1),
    .executeAndInsertBlock (blockOn plainRoot 2)] ++ between ++
  [.commit id (certOf (blockOn plainRoot 1)).signedLedgerInfo true]

/-- A run from the root, with the given number of pruned blocks in memory. -/
def plainRun (calls : List StoreCall) : StoreTrace :=
  run symbolic (start plainRoot (plainTree maxPrunedBlocksInMem)) calls

theorem issued_insert {parent : ExecutedBlock}
    (found : tree.getBlock block.block.parentId = some parent)
    (grows : parent.block.round < block.block.round) :
    (StoreCall.executeAndInsertBlock block).Issued crypto tree := by
  intro other isOther
  rw [found] at isOther
  cases isOther
  exact grows

/-- A commit at once of a child of the root, when nothing is ordered beyond it. -/
theorem issued_commit {root : LinkableBlock} (isOrdered : tree.orderedRootId = tree.commitRootId)
    (proper : proof.commitInfo.id ≠ tree.commitRootId)
    (foundRoot : tree.getLinkableBlock tree.commitRootId = some root)
    (isChild : proof.commitInfo.id ∈ root.children)
    (found : tree.getBlock proof.commitInfo.id = some block)
    (sameRound : block.block.round = proof.commitInfo.round) :
    (StoreCall.commit id proof true).Issued crypto tree := by
  obtain ⟨linked, isLinked, -⟩ := getBlock_eq_some_iff.mp found
  have below : tree.Descends tree.commitRootId proof.commitInfo.id :=
    .child (.self (blockExists_iff.mpr ⟨root, foundRoot⟩)) foundRoot
      isChild (blockExists_iff.mpr ⟨linked, isLinked⟩)
  refine ⟨fun ids => List.Perm.refl _, isOrdered ▸ below, fun _ => ⟨proper, below, ?_⟩⟩
  intro other isOther
  rw [found] at isOther
  cases isOther
  exact sameRound

/-- Only the block itself is below a block without children. -/
theorem eq_of_descends {ancestor id : HashValue} {block : LinkableBlock}
    (found : tree.getLinkableBlock ancestor = some block) (childless : block.children = [])
    (descends : tree.Descends ancestor id) : id = ancestor := by
  induction descends with
  | self _ => rfl
  | child _ foundParent isChild _ ih =>
    subst ih
    rw [found] at foundParent
    cases foundParent
    rw [childless] at isChild
    cases isChild

theorem new_plainTree :
    new symbolic plainRoot (certOf plainRoot)
        (certOf plainRoot) (certOf plainRoot).signedLedgerInfo
        maxPrunedBlocksInMem =
      .ok (plainTree maxPrunedBlocksInMem) :=
  rfl

/-- The certified block of a fork is committed, and the other block is removed. -/
theorem run_wellFormed_certifiedFork :
    (plainRun 0
      (forkAndCommit [.insertSingleQuorumCert (certOf (blockOn plainRoot 1))])).WellFormed := by
  refine run_wellFormed (new_plainTree 0) rfl le_rfl ?_ ?_
  · exact ⟨issued_insert rfl (by decide), issued_insert rfl (by decide),
      trivial, issued_commit rfl (by decide) rfl (by decide) rfl rfl, trivial⟩
  · exact ⟨fun _ => not_mem_nil, fun _ => not_mem_nil, trivial, fun _ => .self rfl, trivial⟩

/--
A block attached below a pruned one is neither below the root nor pruned, and a certified
block of a fork is removed when the other block is committed.
-/
theorem fork_breaks_tree :
    ((start plainRoot (plainTree 2)).Issued symbolic
        (forkAndCommit [] ++ [.executeAndInsertBlock (blockOn (blockOn plainRoot 2) 3)]) ∧
      ¬ (plainRun 2
        (forkAndCommit [] ++
          [.executeAndInsertBlock (blockOn (blockOn plainRoot 2) 3)])).WellFormed) ∧
    ((start plainRoot (plainTree 0)).Issued symbolic
        (forkAndCommit [.insertSingleQuorumCert (certOf (blockOn plainRoot 2))]) ∧
      ¬ (plainRun 0
        (forkAndCommit [.insertSingleQuorumCert (certOf (blockOn plainRoot 2))])).WellFormed) := by
  refine ⟨⟨?_, ?_⟩, ?_, ?_⟩
  · exact ⟨issued_insert rfl (by decide), issued_insert rfl (by decide),
      issued_commit rfl (by decide) rfl (by decide) rfl rfl, issued_insert rfl (by decide), trivial⟩
  · intro wellFormed
    rcases wellFormed.covered ((blockOn (blockOn plainRoot 2) 3).id symbolic) rfl with
      below | pruned
    · exact absurd (eq_of_descends rfl rfl below) (by decide)
    · exact absurd pruned (by decide)
  · exact ⟨issued_insert rfl (by decide), issued_insert rfl (by decide),
      trivial, issued_commit rfl (by decide) rfl (by decide) rfl rfl, trivial⟩
  · intro wellFormed
    exact absurd wellFormed.highestBlock (by decide)

end StoreTrace

end Diem
