import Diem.BufferItem
import Mathlib.Data.List.AList

namespace Diem

open Fallible

/-!
# The tree of pending blocks

`BlockTree` holds the blocks that are not committed yet, with links from parents to
children, and the highest certificates
(`consensus/src/block_storage/block_tree.rs`).  When a block is committed the blocks that
are not below it are pruned: their ids go to a queue, and the oldest ids of a queue that
is too long are removed from the tree.

The children of a block are a hash set, so the order in which a walk meets them is a
parameter of the methods that iterate over them.  Timeout certificates, counters and the
persistent storage are left out.
-/

/-- A block with the ids of its children. -/
structure LinkableBlock where
  executedBlock : ExecutedBlock
  children : List HashValue
  deriving DecidableEq

namespace LinkableBlock

def new (block : ExecutedBlock) : LinkableBlock where
  executedBlock := block
  children := []

variable (crypto : Crypto) (block : LinkableBlock)

def id : HashValue := block.executedBlock.id crypto

def round : Nat := block.executedBlock.block.round

def parentId : HashValue := block.executedBlock.block.parentId

/-- Add a child, which must not be one already. -/
def addChild (childId : HashValue) : Fallible LinkableBlock := do
  require (childId ∉ block.children) "Block already existed."
  return { block with children := block.children ++ [childId] }

end LinkableBlock

/-- A map from ids, as a list of entries. -/
abbrev IdMap (Value : Type) := AList fun _ : HashValue => Value

/-- The pending blocks with the roots and the highest certificates. -/
structure BlockTree where
  idToBlock : IdMap LinkableBlock
  orderedRootId : HashValue
  commitRootId : HashValue
  highestCertifiedBlockId : HashValue
  highestQuorumCert : QuorumCert
  highestOrderedCert : QuorumCert
  highestLedgerInfo : LedgerInfoWithSignatures
  idToQuorumCert : IdMap QuorumCert
  prunedBlockIds : List HashValue
  maxPrunedBlocksInMem : Nat

namespace BlockTree

variable (crypto : Crypto)

def new (root : ExecutedBlock) (rootQuorumCert rootOrderedCert : QuorumCert)
    (rootCommitLedgerInfo : LedgerInfoWithSignatures) (maxPrunedBlocksInMem : Nat) :
    Fallible BlockTree := do
  require (root.id crypto = rootOrderedCert.commitInfo.id) "inconsistent root and ledger info"
  return {
    idToBlock := (∅ : IdMap LinkableBlock).insert (root.id crypto) (.new root)
    orderedRootId := root.id crypto
    commitRootId := root.id crypto
    highestCertifiedBlockId := root.id crypto
    highestQuorumCert := rootQuorumCert
    highestOrderedCert := rootOrderedCert
    highestLedgerInfo := rootCommitLedgerInfo
    idToQuorumCert := (∅ : IdMap QuorumCert).insert rootQuorumCert.certifiedBlock.id rootQuorumCert
    prunedBlockIds := []
    maxPrunedBlocksInMem }

variable (tree : BlockTree) (blockId : HashValue)

def getLinkableBlock : Option LinkableBlock :=
  tree.idToBlock.lookup blockId

def getBlock : Option ExecutedBlock :=
  (tree.getLinkableBlock blockId).map LinkableBlock.executedBlock

def blockExists : Bool := (tree.getLinkableBlock blockId).isSome

/-- The root of the tree, which pruning starts from. -/
def linkableRoot : Fallible LinkableBlock :=
  expect (tree.getLinkableBlock tree.commitRootId) "Root must exist"

/-- The last block that is ordered. -/
def orderedRoot : Fallible ExecutedBlock :=
  expect (tree.getBlock tree.orderedRootId) "Root must exist"

/-- The last block that is committed. -/
def commitRoot : Fallible ExecutedBlock :=
  expect (tree.getBlock tree.commitRootId) "Commit root must exist"

/-- The certified block of the highest round. -/
def highestCertifiedBlock : Fallible ExecutedBlock :=
  expect (tree.getBlock tree.highestCertifiedBlockId) "Highest cerfified block must exist"

def removeBlock : BlockTree :=
  { tree with
    idToBlock := tree.idToBlock.erase blockId
    idToQuorumCert := tree.idToQuorumCert.erase blockId }

def insertBlock (block : ExecutedBlock) : Fallible BlockTree :=
  match tree.getBlock (block.id crypto) with
  | some existingBlock => do
      require (existingBlock.stateComputeResult = block.stateComputeResult)
        "assertion failed: `(left == right)`"
      return tree
  | none =>
    match tree.getLinkableBlock block.block.parentId with
    | none => .error (.error "Parent block not found")
    | some parentBlock => do
        let linked ← parentBlock.addChild (block.id crypto)
        return { tree with
          idToBlock := (tree.idToBlock.insert block.block.parentId linked).insert
            (block.id crypto) (.new block) }

/-- Make a block the root of ordering. -/
def updateOrderedRoot (rootId : HashValue) : Fallible BlockTree := do
  require (tree.blockExists rootId) "assertion failed: self.block_exists(&root_id)"
  return { tree with orderedRootId := rootId }

/-- Make a block the root of the tree. -/
def updateCommitRoot (rootId : HashValue) : Fallible BlockTree := do
  require (tree.blockExists rootId) "assertion failed: self.block_exists(&root_id)"
  return { tree with commitRootId := rootId }

/-- Take over the ledger info of a higher round, and its block as the root. -/
def updateHighestLedgerInfo (newLedgerInfo : LedgerInfoWithSignatures) : Fallible BlockTree :=
  if newLedgerInfo.commitInfo.round > tree.highestLedgerInfo.commitInfo.round
  then
    updateCommitRoot { tree with highestLedgerInfo := newLedgerInfo } newLedgerInfo.commitInfo.id
  else
    .ok tree

/-- The tree with a certificate that is kept if it is higher than the others. -/
def recordQuorumCert (cert : QuorumCert) : BlockTree :=
  { tree with
    idToQuorumCert :=
      if (tree.idToQuorumCert.lookup cert.certifiedBlock.id).isSome then
        tree.idToQuorumCert
      else
        tree.idToQuorumCert.insert cert.certifiedBlock.id cert
    highestOrderedCert :=
      if tree.highestOrderedCert.commitInfo.round < cert.commitInfo.round then
        cert
      else
        tree.highestOrderedCert }

/-- Add the certificate of a block in the tree. -/
def insertQuorumCert (cert : QuorumCert) : Fallible BlockTree :=
  match tree.getBlock cert.certifiedBlock.id with
  | none => .error (.error "Block not found")
  | some block => do
      let highest ← tree.highestCertifiedBlock
      return if block.block.round > highest.block.round then
          recordQuorumCert
            { tree with
              highestCertifiedBlockId := block.id crypto
              highestQuorumCert := cert }
            cert
        else
          tree.recordQuorumCert cert

variable (iterate : List HashValue → List HashValue) (nextRootId : HashValue)

/-- Push the children of a block on the stack, except the next root. -/
def pushChildren :
    List HashValue → List LinkableBlock → Fallible (List LinkableBlock)
  | [], stack => .ok stack
  | childId :: rest, stack =>
    if nextRootId = childId then
      pushChildren rest stack
    else do
      let child ← expect (tree.getLinkableBlock childId) "Child must exist in the tree"
      pushChildren rest (child :: stack)

/-- The loop of `findBlocksToPrune`; the stack holds its top first. -/
def pruneLoop :
    Nat → List LinkableBlock → List HashValue → Fallible (List HashValue)
  | _, [], blocksPruned => .ok blocksPruned
  | 0, _ :: _, _ => .error (.panic "the walk over the children does not end")
  | fuel + 1, blockToRemove :: stack, blocksPruned => do
      let pushed ← tree.pushChildren nextRootId (iterate blockToRemove.children) stack
      pruneLoop fuel pushed (blocksPruned ++ [blockToRemove.id crypto])

/-- The blocks that are not below the next root. -/
def findBlocksToPrune : Fallible (List HashValue) :=
  if nextRootId = tree.commitRootId then
    .ok []
  else do
    let root ← tree.linkableRoot
    pruneLoop crypto tree iterate nextRootId tree.idToBlock.keys.length [root] []

/-- Queue the ids of pruned blocks, and forget the oldest ones. -/
def processPrunedBlocks (newlyPrunedBlocks : List HashValue) : BlockTree :=
  let queue := tree.prunedBlockIds ++ newlyPrunedBlocks
  let numBlocksToRemove := queue.length - tree.maxPrunedBlocksInMem
  { (queue.take numBlocksToRemove).foldl removeBlock tree with
    prunedBlockIds := queue.drop numBlocksToRemove }

/-- Prune the tree after blocks were committed. -/
def commitCallback (iterate : List HashValue → List HashValue) (tree : BlockTree)
    (blocksToCommit : List ExecutedBlock) (commitProof : LedgerInfoWithSignatures) :
    Fallible BlockTree := do
  let blockToCommit ← expect blocksToCommit.getLast? "called `Option::unwrap()` on a `None` value"
  let _ ← tree.commitRoot
  let idToRemove ← findBlocksToPrune crypto tree iterate (blockToCommit.id crypto)
  (tree.processPrunedBlocks idToRemove).updateHighestLedgerInfo commitProof

/-- The loop of `pathFromRootToBlock`, with the path so far. -/
def pathLoop (rootId : HashValue) (rootRound : Nat) :
    Nat → HashValue → List ExecutedBlock → Option (List ExecutedBlock)
  | 0, _, _ => none
  | fuel + 1, curBlockId, path =>
    match tree.getBlock curBlockId with
    | none => none
    | some block =>
      if block.block.round ≤ rootRound then
        if curBlockId = rootId then some path else none
      else
        pathLoop rootId rootRound fuel block.block.parentId (block :: path)

/--
The blocks after the root up to the given one; `none` if the block is not below the root.
Rounds decrease from a block to its parent, so the loop ends before the round of the
block is used up.
-/
def pathFromRootToBlock (blockId rootId : HashValue)
    (rootRound : Nat) : Option (List ExecutedBlock) :=
  let fuel :=
    match tree.getBlock blockId with
    | none => 1
    | some block => block.block.round + 1
  tree.pathLoop rootId rootRound fuel blockId []

/-- The blocks after the root of ordering up to the given one. -/
def pathFromOrderedRoot : Fallible (Option (List ExecutedBlock)) := do
  let root ← tree.orderedRoot
  return tree.pathFromRootToBlock blockId tree.orderedRootId root.block.round

end BlockTree

/-!
## The calls of the block store

`BlockStore` checks what it is given before it changes the tree
(`consensus/src/block_storage/block_store.rs`).  The execution of a block is a parameter:
the block is given with its result.
-/

namespace BlockStore

variable (crypto : Crypto) (tree : BlockTree)

/-- Add an executed block that is newer than the root of ordering. -/
def executeAndInsertBlock (block : ExecutedBlock) : Fallible BlockTree :=
  match tree.getBlock (block.id crypto) with
  | some _ => .ok tree
  | none => do
      let root ← tree.orderedRoot
      ensure (root.block.round < block.block.round) "Block with old round"
      tree.insertBlock crypto block

/-- Add a certificate that fits the block it is for. -/
def insertSingleQuorumCert (cert : QuorumCert) : Fallible BlockTree :=
  match tree.getBlock cert.certifiedBlock.id with
  | none => .error (.error "Insert without having the block in store first")
  | some executedBlock => do
      ensure ((executedBlock.blockInfo crypto).matchOrderedOnly cert.certifiedBlock)
        "QC for block has different block info than local"
      tree.insertQuorumCert crypto cert

/-- The blocks that a finality proof commits, and the last of them. -/
def blocksToCommit (finalityProof : LedgerInfoWithSignatures) :
    Fallible (ExecutedBlock × List ExecutedBlock) := do
  let blockToCommit ←
    match tree.getBlock finalityProof.commitInfo.id with
    | some block => .ok block
    | none => .error (.error "Committed block id not found")
  let root ← tree.orderedRoot
  ensure (blockToCommit.block.round > root.block.round) "Committed block round lower than root"
  let path ← tree.pathFromOrderedRoot finalityProof.commitInfo.id
  require ((path.getD []).isEmpty = false) "assertion failed: !blocks_to_commit.is_empty()"
  return (blockToCommit, path.getD [])

/--
Commit the blocks up to that of a finality proof.  A state computer that executes before
ordering commits at once; one that executes afterwards calls back later.
-/
def commit (iterate : List HashValue → List HashValue) (tree : BlockTree)
    (finalityProof : LedgerInfoWithSignatures) (atOnce : Bool) : Fallible BlockTree := do
  let found ← blocksToCommit tree finalityProof
  let committed ←
    if atOnce then
      tree.commitCallback crypto iterate found.2 finalityProof
    else
      .ok tree
  committed.updateOrderedRoot (found.1.id crypto)

end BlockStore

end Diem
