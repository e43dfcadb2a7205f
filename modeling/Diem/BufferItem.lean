import Diem.Buffer
import Diem.CertificateVerification

namespace Diem

open Fallible

/-!
# Batches of blocks in the execution pipeline

A batch of ordered blocks is executed, its result is signed, and the signatures of a
quorum make the proof with which it is committed
(`consensus/src/experimental/buffer_item.rs`).  The items of the buffer are batches in
one of these four stages.  Signatures that arrive before the batch is executed cannot be
checked yet, and are checked when the result is known.
-/

/-- What became of a transaction; consensus only asks whether there is a status. -/
inductive TransactionStatus where
  | discard
  | keep
  | retry
  deriving DecidableEq, Repr

/-- The result of executing a block, as far as consensus reads it. -/
structure StateComputeResult where
  rootHash : HashValue
  numLeaves : Nat
  epochState : Option EpochState
  computeStatus : List TransactionStatus
  deriving DecidableEq

namespace StateComputeResult

/-- The version of the last transaction. -/
def version (result : StateComputeResult) : Nat :=
  max result.numLeaves 1 - 1

/-- Whether the epoch ends with the block or ended before it. -/
def hasReconfiguration (result : StateComputeResult) : Bool :=
  result.epochState.isSome

end StateComputeResult

/-- A block with the result of its execution. -/
structure ExecutedBlock where
  block : Block
  stateComputeResult : StateComputeResult
  deriving DecidableEq

namespace ExecutedBlock

variable (crypto : Crypto) (executed : ExecutedBlock)

def id : HashValue := executed.block.id crypto

def timestampUsecs : Nat :=
  executed.block.blockData.timestampUsecs

def blockInfo : BlockInfo :=
  executed.block.genBlockInfo crypto executed.stateComputeResult.rootHash
    executed.stateComputeResult.version executed.stateComputeResult.epochState

/-- Whether the epoch ended before the block, so that nothing was executed. -/
def isReconfigurationSuffix : Bool :=
  executed.stateComputeResult.hasReconfiguration &&
    executed.stateComputeResult.computeStatus.isEmpty

end ExecutedBlock

/-- A validator's signature on an execution result. -/
structure CommitVote where
  author : AccountAddress
  ledgerInfo : LedgerInfo
  signature : Signature
  deriving DecidableEq

namespace CommitVote

/-- The block whose result is signed. -/
def commitInfo (vote : CommitVote) : BlockInfo :=
  vote.ledgerInfo.commitInfo

/-- The signature is the author's, over the ledger info of the vote. -/
def verify (crypto : Crypto) (vote : CommitVote) (validator : ValidatorVerifier) : Fallible Unit :=
  context
    (VerifyError.report
      (validator.verify crypto vote.author (.ledgerInfo vote.ledgerInfo) vote.signature))
    "Failed to verify Commit Vote"

end CommitVote

/-- A quorum's signatures on an execution result. -/
structure CommitDecision where
  ledgerInfo : LedgerInfoWithSignatures
  deriving DecidableEq

namespace CommitDecision

/-- The signatures are those of a quorum. -/
def verify (crypto : Crypto) (decision : CommitDecision)
    (validator : ValidatorVerifier) : Fallible Unit :=
  context (VerifyError.report (decision.ledgerInfo.verifySignatures crypto validator))
    "Failed to verify Commit Decision"

end CommitDecision

/-- What is called after a commit; the pipeline only passes it on. -/
structure CommitCallback where
  token : Nat
  deriving DecidableEq, Repr

/-- The ledger info that the validators sign for an executed batch. -/
def generateCommitProof (commitInfo : BlockInfo)
    (orderedProof : LedgerInfoWithSignatures) : LedgerInfo where
  commitInfo
  consensusDataHash := orderedProof.ledgerInfo.consensusDataHash

/-- The ledger info with those of the signatures that are valid for it. -/
def aggregateLedgerInfo (crypto : Crypto) (commitLedgerInfo : LedgerInfo)
    (unverifiedSignatures : OrderedMap AccountAddress Signature)
    (validator : ValidatorVerifier) : LedgerInfoWithSignatures where
  ledgerInfo := commitLedgerInfo
  signatures := unverifiedSignatures.filter fun entry =>
    (validator.verify crypto entry.1 (.ledgerInfo commitLedgerInfo) entry.2).isOk

/-- Blocks that wait for execution. -/
structure OrderedItem where
  unverifiedSignatures : OrderedMap AccountAddress Signature
  callback : CommitCallback
  orderedBlocks : List ExecutedBlock
  orderedProof : LedgerInfoWithSignatures
  deriving DecidableEq

/-- Blocks that wait for their signature. -/
structure ExecutedItem where
  executedBlocks : List ExecutedBlock
  commitProof : LedgerInfoWithSignatures
  callback : CommitCallback
  commitInfo : BlockInfo
  orderedProof : LedgerInfoWithSignatures
  deriving DecidableEq

/-- A batch whose result this validator has signed. -/
structure SignedItem where
  executedBlocks : List ExecutedBlock
  commitProof : LedgerInfoWithSignatures
  callback : CommitCallback
  commitVote : CommitVote
  deriving DecidableEq

/-- A batch whose result a quorum has signed. -/
structure AggregatedItem where
  executedBlocks : List ExecutedBlock
  commitProof : LedgerInfoWithSignatures
  callback : CommitCallback
  deriving DecidableEq

/-- A batch in one of the stages of the pipeline. -/
inductive BufferItem where
  | ordered (item : OrderedItem)
  | executed (item : ExecutedItem)
  | signed (item : SignedItem)
  | aggregated (item : AggregatedItem)
  deriving DecidableEq

namespace BufferItem

/-- A batch that was just ordered. -/
def newOrdered (orderedBlocks : List ExecutedBlock) (orderedProof : LedgerInfoWithSignatures)
    (callback : CommitCallback) : BufferItem :=
  .ordered
    { unverifiedSignatures := .empty, callback, orderedBlocks, orderedProof }

variable (crypto : Crypto) (executedBlocks : List ExecutedBlock)

/-- Two batches list the same blocks; `zip_eq` panics on different lengths. -/
def requireSameIds :
    List ExecutedBlock → List ExecutedBlock → Fallible Unit
  | [], [] => .ok ()
  | first :: firsts, second :: seconds => do
      require (first.id crypto = second.id crypto) "assertion failed: `(left == right)`"
      requireSameIds firsts seconds
  | _, _ => .error (.panic "itertools: .zip_eq() reached end of one iterator before the other")

/-- The timestamp of the block that ends the epoch, unless it is the given one. -/
def reconfigTimestamp (timestamp : Nat) : Option Nat :=
  ((executedBlocks.find? fun block =>
      (block.blockInfo crypto).hasReconfiguration).map
    ExecutedBlock.timestampUsecs).filter fun ts => ts ≠ timestamp

/--
The block info that a batch commits.  A block after the end of the epoch takes the
timestamp of the block that ended it.
-/
def batchCommitInfo : Fallible BlockInfo := do
  let last ← expect executedBlocks.getLast? unwrapNone
  let commitInfo := last.blockInfo crypto
  match reconfigTimestamp crypto executedBlocks commitInfo.timestampUsecs with
  | none => return commitInfo
  | some ts => do
      require last.isReconfigurationSuffix
        ("assertion failed: " ++ "executed_blocks.last().unwrap().is_reconfiguration_suffix()")
      commitInfo.changeTimestamp ts

/--
Advance an ordered batch with its execution result.  The signatures gathered so far are
checked, and the batch is aggregated if those that are valid make a quorum.
-/
def advanceToExecutedOrAggregated (item : BufferItem) (executedBlocks : List ExecutedBlock)
    (validator : ValidatorVerifier) : Fallible BufferItem :=
  match item with
  | .ordered item => do
      requireSameIds crypto item.orderedBlocks executedBlocks
      let commitInfo ← batchCommitInfo crypto executedBlocks
      let commitProof :=
        aggregateLedgerInfo crypto (generateCommitProof commitInfo item.orderedProof)
          item.unverifiedSignatures validator
      return if (commitProof.checkVotingPower validator).isOk then
          .aggregated { executedBlocks, commitProof, callback := item.callback }
        else
          .executed
            { executedBlocks
              commitProof
              callback := item.callback
              commitInfo
              orderedProof := item.orderedProof }
  | _ => .error (.panic "Only ordered blocks can advance to executed blocks.")

variable (item : BufferItem)

/-- Advance an executed batch with the signature of this validator. -/
def advanceToSigned (author : AccountAddress) (signature : Signature) : Fallible BufferItem :=
  match item with
  | .executed item =>
    .ok (.signed
      { executedBlocks := item.executedBlocks
        commitProof := item.commitProof
        callback := item.callback
        commitVote := { author, ledgerInfo := item.commitProof.ledgerInfo, signature } })
  | _ => .error (.panic "Only executed buffer items can advance to signed blocks.")

/-- Advance a batch with a proof that has the signatures of a quorum. -/
def tryAdvanceToAggregatedWithLedgerInfo
    (commitProof : LedgerInfoWithSignatures) : Fallible BufferItem :=
  match item with
  | .signed item => do
      require (item.commitProof.commitInfo = commitProof.commitInfo)
        "assertion failed: `(left == right)`"
      return .aggregated
        { executedBlocks := item.executedBlocks
          commitProof
          callback := item.callback }
  | .executed item => do
      require (item.commitInfo = commitProof.commitInfo) "assertion failed: `(left == right)`"
      return .aggregated
        { executedBlocks := item.executedBlocks
          commitProof
          callback := item.callback }
  | .ordered item => do
      require (item.orderedProof.commitInfo.matchOrderedOnly commitProof.commitInfo)
        ("assertion failed: ordered.ordered_proof.commit_info()" ++
          ".match_ordered_only(commit_proof.commit_info())")
      return .ordered { item with unverifiedSignatures := commitProof.signatures }
  | .aggregated _ =>
    .error (.panic
      ("internal error: entered unreachable code: Found aggregated buffer " ++
        "item but any aggregated buffer item should get dequeued right " ++
        "away."))

/-- Advance a batch whose signatures make a quorum. -/
def tryAdvanceToAggregated (validator : ValidatorVerifier) : BufferItem :=
  match item with
  | .signed item =>
    if (item.commitProof.checkVotingPower validator).isOk then
      .aggregated
        { executedBlocks := item.executedBlocks
          commitProof := item.commitProof
          callback := item.callback }
    else
      .signed item
  | .executed item =>
    if (item.commitProof.checkVotingPower validator).isOk then
      .aggregated
        { executedBlocks := item.executedBlocks
          commitProof := item.commitProof
          callback := item.callback }
    else
      .executed item
  | item => item

def getBlocks : BufferItem → List ExecutedBlock
  | .ordered item => item.orderedBlocks
  | .executed item => item.executedBlocks
  | .signed item => item.executedBlocks
  | .aggregated item => item.executedBlocks

def blockId : Fallible HashValue := do
  let last ← expect item.getBlocks.getLast? unwrapNone
  return last.id crypto

/--
Record the signature of a vote that is about this batch.  The vote's signature was
checked for the ledger info of the vote, and only the commit info is compared here.
-/
def addSignatureIfMatched (vote : CommitVote) : Fallible BufferItem :=
  match item with
  | .ordered item =>
    if item.orderedProof.commitInfo.matchOrderedOnly vote.commitInfo then
      .ok (.ordered
        { item with
          unverifiedSignatures := item.unverifiedSignatures.insert vote.author vote.signature })
    else
      .error (.error "Inconsistent commit info.")
  | .executed item =>
    if item.commitInfo = vote.commitInfo then
      .ok (.executed
        { item with
          commitProof := item.commitProof.addSignature vote.author vote.signature })
    else
      .error (.error "Inconsistent commit info.")
  | .signed item =>
    if item.commitProof.commitInfo = vote.commitInfo then
      .ok (.signed
        { item with
          commitProof := item.commitProof.addSignature vote.author vote.signature })
    else
      .error (.error "Inconsistent commit info.")
  | .aggregated item =>
    if item.commitProof.commitInfo = vote.commitInfo then
      .ok (.aggregated item)
    else
      .error (.error "Inconsistent commit info.")

/-- Whether the batch is ordered and not executed yet. -/
def isOrdered : BufferItem → Bool
  | .ordered _ => true
  | _ => false

/-- Whether the batch is executed and not signed yet. -/
def isExecuted : BufferItem → Bool
  | .executed _ => true
  | _ => false

/-- Whether this validator has signed the result of the batch. -/
def isSigned : BufferItem → Bool
  | .signed _ => true
  | _ => false

/-- Whether a quorum has signed the result of the batch. -/
def isAggregated : BufferItem → Bool
  | .aggregated _ => true
  | _ => false

def unwrapSignedRef : BufferItem → Fallible SignedItem
  | .signed item => .ok item
  | _ => .error (.panic "Not signed item")

def unwrapExecutedRef : BufferItem → Fallible ExecutedItem
  | .executed item => .ok item
  | _ => .error (.panic "Not executed item")

def unwrapAggregated : BufferItem → Fallible AggregatedItem
  | .aggregated item => .ok item
  | _ => .error (.panic "Not aggregated item")

end BufferItem

end Diem
