import Diem.BufferItem
import Diem.PersistentSafetyStorage

namespace Diem

open Stateful

/-!
# The manager of the execution pipeline

`BufferManager` moves batches of ordered blocks through execution, signing and the
collection of signatures, and hands them on to be persisted
(`consensus/src/experimental/buffer_manager.rs`).  Its main loop takes one message at a
time from its input channels; the model runs one iteration of the loop at a time.

What an iteration sends is recorded in an outbox.  The receiving ends of the outgoing
channels are taken to be alive, and log output is left out.
-/

structure ExecutionRequest where
  orderedBlocks : List ExecutedBlock
  deriving DecidableEq

/-- The result of executing the batch that ends with the given block. -/
structure ExecutionResponse where
  blockId : HashValue
  inner : Except String (List ExecutedBlock)

structure SigningRequest where
  orderedLedgerInfo : LedgerInfoWithSignatures
  commitLedgerInfo : LedgerInfo
  deriving DecidableEq

structure SigningResponse where
  signatureResult : Except SafetyRulesError Signature
  commitLedgerInfo : LedgerInfo

/-- Batches that are to be persisted, with the proof of the last one. -/
structure PersistingRequest where
  blocks : List ExecutedBlock
  commitLedgerInfo : LedgerInfoWithSignatures
  callback : CommitCallback
  deriving DecidableEq

/-- A batch that consensus has ordered. -/
structure OrderedBlocks where
  orderedBlocks : List ExecutedBlock
  orderedProof : LedgerInfoWithSignatures
  callback : CommitCallback
  deriving DecidableEq

/-- A request to forget everything; the sender may have stopped to wait for it. -/
structure ResetRequest where
  receiverWaits : Bool
  stop : Bool
  deriving DecidableEq

/-- A message from another validator that was verified. -/
inductive VerifiedEvent where
  | commitVote (vote : CommitVote)
  | commitDecision (decision : CommitDecision)
  | other
  deriving DecidableEq

/-- What an iteration of the main loop sends. -/
structure Outbox where
  executionRequests : List ExecutionRequest
  signingRequests : List SigningRequest
  persistingRequests : List PersistingRequest
  commitVotes : List CommitVote
  epochChanges : List EpochChangeProof
  deriving DecidableEq

namespace Outbox

/-- Nothing sent. -/
def empty : Outbox where
  executionRequests := []
  signingRequests := []
  persistingRequests := []
  commitVotes := []
  epochChanges := []

variable (outbox : Outbox)

/-- Send a batch to be executed. -/
def sendExecution (request : ExecutionRequest) : Outbox :=
  { outbox with executionRequests := outbox.executionRequests ++ [request] }

def sendSigning (request : SigningRequest) : Outbox :=
  { outbox with signingRequests := outbox.signingRequests ++ [request] }

def sendPersisting (request : PersistingRequest) : Outbox :=
  { outbox with persistingRequests := outbox.persistingRequests ++ [request] }

/-- Send a vote to all validators. -/
def broadcast (vote : CommitVote) : Outbox :=
  { outbox with commitVotes := outbox.commitVotes ++ [vote] }

/-- Announce the end of an epoch. -/
def notifyEpochChange (proof : EpochChangeProof) : Outbox :=
  { outbox with epochChanges := outbox.epochChanges ++ [proof] }

end Outbox

/-- The state of the buffer manager. -/
structure BufferManager where
  author : AccountAddress
  buffer : Buffer BufferItem
  executionRoot : Cursor
  signingRoot : Cursor
  stop : Bool
  verifier : ValidatorVerifier
  outbox : Outbox

namespace BufferManager

def stored (manager : BufferManager) (key : HashValue) : Option BufferItem :=
  (manager.buffer.map key).bind LinkedItem.elem

def new (author : AccountAddress) (verifier : ValidatorVerifier) : BufferManager where
  author
  buffer := .new
  executionRoot := none
  signingRoot := none
  stop := false
  verifier
  outbox := .empty

/-- A computation of the manager. -/
abbrev Handler := Stateful BufferManager Failure

def putBuffer (buffer : Buffer BufferItem) : Handler Unit :=
  modify fun manager => { manager with buffer }

def send (change : Outbox → Outbox) : Handler Unit :=
  modify fun manager => { manager with outbox := change manager.outbox }

def current : Handler BufferManager :=
  reads fun manager => manager

variable (crypto : Crypto)

/-- Push an ordered batch into the buffer. -/
def processOrderedBlocks (ordered : OrderedBlocks) : Handler Unit := do
  let manager ← current
  let item := .newOrdered ordered.orderedBlocks ordered.orderedProof ordered.callback
  let buffer ← lift (manager.buffer.pushBack (BufferItem.blockId crypto) item)
  putBuffer buffer

/-- Ask for the execution of the first batch that is not executed. -/
def advanceExecutionRoot : Handler Unit := do
  let manager ← current
  let cursor := manager.executionRoot.or manager.buffer.headCursor
  let executionRoot ← lift (manager.buffer.findElemFrom cursor BufferItem.isOrdered)
  modify fun manager => { manager with executionRoot }
  if executionRoot.isSome then do
    let item ← lift (manager.buffer.get executionRoot)
    send fun outbox => outbox.sendExecution { orderedBlocks := item.getBlocks }
  else
    pure ()

/-- Ask for the signature on the first result that is not signed. -/
def advanceSigningRoot : Handler Unit := do
  let manager ← current
  let cursor := manager.signingRoot.or manager.buffer.headCursor
  let signingRoot ← lift (manager.buffer.findElemFrom cursor BufferItem.isExecuted)
  modify fun manager => { manager with signingRoot }
  if signingRoot.isSome then do
    let item ← lift (manager.buffer.get signingRoot)
    let executedItem ← lift item.unwrapExecutedRef
    send fun outbox =>
      outbox.sendSigning
        { orderedLedgerInfo := executedItem.orderedProof
          commitLedgerInfo := executedItem.commitProof.ledgerInfo }
  else
    pure ()

/-- Forget a root that points to a batch that was removed. -/
def forgetRoots (blockId : HashValue) (manager : BufferManager) : BufferManager :=
  { manager with
    signingRoot :=
      if manager.signingRoot = some blockId then none
      else manager.signingRoot
    executionRoot :=
      if manager.executionRoot = some blockId then none
      else manager.executionRoot }

/-- Send the batches up to an aggregated one to be persisted. -/
def sendPersisting (blocks : List ExecutedBlock) (item : AggregatedItem) : Handler Unit := do
  send fun outbox =>
    if item.commitProof.ledgerInfo.endsEpoch then
      outbox.notifyEpochChange
        { ledgerInfoWithSigs := [item.commitProof], more := false }
    else
      outbox
  send fun outbox =>
    outbox.sendPersisting
      { blocks
        commitLedgerInfo := item.commitProof
        callback := item.callback }

/-- The loop of `advanceHead`. -/
def advanceHeadLoop (targetBlockId : HashValue) :
    Nat → List ExecutedBlock → Handler Unit
  | 0, _ => fail (.panic "the loop over the buffer does not end")
  | fuel + 1, blocksToPersist => do
      let manager ← current
      let popped ← lift manager.buffer.popFront
      putBuffer popped.2
      match popped.1 with
      | none =>
        fail (.panic
          ("internal error: entered unreachable code: " ++ "Aggregated item not found in the list"))
      | some item => do
          let blockId ← lift (item.blockId crypto)
          modify (forgetRoots blockId)
          if blockId = targetBlockId then do
            let aggregatedItem ← lift item.unwrapAggregated
            sendPersisting (blocksToPersist ++ item.getBlocks) aggregatedItem
          else
            advanceHeadLoop targetBlockId fuel (blocksToPersist ++ item.getBlocks)

/-- Remove the batches up to the target, and have them persisted. -/
def advanceHead (targetBlockId : HashValue) : Handler Unit := do
  let manager ← current
  advanceHeadLoop crypto targetBlockId (manager.buffer.count + 1) []

/-- Forget everything, and stop if asked to. -/
def processResetRequest (request : ResetRequest) : Handler Unit := do
  modify fun manager =>
    { manager with
      stop := request.stop
      buffer := .new
      executionRoot := none
      signingRoot := none }
  lift
    (Fallible.require request.receiverWaits "called `Result::unwrap()` on an `Err` value: ()")

/-- Advance the batch at a place with its execution result. -/
def executeItem (key : HashValue) (executedBlocks : List ExecutedBlock) : Handler BufferItem := do
  let manager ← current
  let taken ← lift (manager.buffer.take (some key))
  putBuffer taken.2
  let newItem ← lift (taken.1.advanceToExecutedOrAggregated crypto executedBlocks manager.verifier)
  let buffer ← lift (taken.2.set (some key) newItem)
  putBuffer buffer
  return newItem

/--
Advance a batch with its execution result.  A batch after the end of the epoch is left
as it is.
-/
def processExecutionResponse (response : ExecutionResponse) : Handler Unit := do
  let manager ← current
  let currentCursor ← lift (manager.buffer.findElemByKey manager.executionRoot response.blockId)
  match currentCursor, response.inner with
  | none, _ => pure ()
  | some _, .error _ => pure ()
  | some key, .ok executedBlocks => do
      let first ← lift (Fallible.expect executedBlocks.head? unwrapNone)
      if first.isReconfigurationSuffix then
        pure ()
      else do
        let newItem ← executeItem crypto key executedBlocks
        if newItem.isAggregated then
          advanceHead crypto response.blockId
        else
          pure ()

/-- Sign the batch at a place if it is executed. -/
def signItem (key : HashValue) (signature : Signature) : Handler Unit := do
  let manager ← current
  let taken ← lift (manager.buffer.take (some key))
  putBuffer taken.2
  if taken.1.isExecuted then do
    let signedItem ← lift (taken.1.advanceToSigned manager.author signature)
    let signedRef ← lift signedItem.unwrapSignedRef
    let buffer ← lift (taken.2.set (some key) signedItem)
    putBuffer buffer
    send fun outbox => outbox.broadcast signedRef.commitVote
  else do
    let buffer ← lift (taken.2.set (some key) taken.1)
    putBuffer buffer

/-- Advance a batch with the signature of this validator, and send the vote. -/
def processSigningResponse (response : SigningResponse) : Handler Unit :=
  match response.signatureResult with
  | .error _ => pure ()
  | .ok signature => do
      let manager ← current
      let currentCursor ←
        lift
          (manager.buffer.findElemByKey manager.signingRoot response.commitLedgerInfo.commitInfo.id)
      match currentCursor with
      | none => pure ()
      | some key => signItem key signature

/-- Change the batch with the given last block, and tell if it is aggregated. -/
def changeItem (targetBlockId : HashValue) (change : BufferItem → Fallible BufferItem) :
    Handler (Option HashValue) := do
  let manager ← current
  let cursor ← lift (manager.buffer.findElemByKey manager.buffer.headCursor targetBlockId)
  match cursor with
  | none => pure none
  | some key => do
      let taken ← lift (manager.buffer.take (some key))
      putBuffer taken.2
      let newItem ← lift (change taken.1)
      let buffer ← lift (taken.2.set (some key) newItem)
      putBuffer buffer
      return if newItem.isAggregated then some targetBlockId else none

/-- The batch with the signature of a vote, if the vote is about it. -/
def countVote (verifier : ValidatorVerifier) (vote : CommitVote) (item : BufferItem) : BufferItem :=
  match item.addSignatureIfMatched vote with
  | .ok updated => updated.tryAdvanceToAggregated verifier
  | .error _ => item

/-- Count a vote, or take over the signatures of a quorum. -/
def processCommitMessage (commitMsg : VerifiedEvent) : Handler (Option HashValue) :=
  match commitMsg with
  | .commitVote vote => do
      let manager ← current
      changeItem vote.commitInfo.id fun item => .ok (countVote manager.verifier vote item)
  | .commitDecision decision =>
    changeItem decision.ledgerInfo.commitInfo.id fun item =>
      item.tryAdvanceToAggregatedWithLedgerInfo decision.ledgerInfo
  | .other => fail (.panic "internal error: entered unreachable code")

/-- The loop of `retryBroadcastingCommitVotes`. -/
def retryLoop : Nat → Cursor → Handler Unit
  | _, none => pure ()
  | 0, some _ => fail (.panic "the loop over the buffer does not end")
  | fuel + 1, some key => do
      let manager ← current
      let item ← lift (manager.buffer.get (some key))
      if !item.isSigned then
        pure ()
      else do
        let signedItem ← lift item.unwrapSignedRef
        send fun outbox => outbox.broadcast signedItem.commitVote
        let next ← lift (manager.buffer.getNext (some key))
        retryLoop fuel next

/-- Send the votes for the batches at the head again. -/
def retryBroadcastingCommitVotes : Handler Unit := do
  let manager ← current
  retryLoop manager.buffer.count manager.buffer.headCursor

/-- Advance a root that points nowhere. -/
def unlessSet (root : BufferManager → Cursor) (advance : Handler Unit) : Handler Unit := do
  let cursor ← reads root
  if cursor.isNone then
    advance
  else
    pure ()

/-- What the main loop receives. -/
inductive LoopEvent where
  | orderedBlocks (ordered : OrderedBlocks)
  | reset (request : ResetRequest)
  | executionResponse (response : ExecutionResponse)
  | signingResponse (response : SigningResponse)
  | commitMessage (message : VerifiedEvent)
  | tick

/-- React to an aggregated batch. -/
def advanceAggregated (aggregatedBlockId : HashValue) : Handler Unit := do
  advanceHead crypto aggregatedBlockId
  unlessSet executionRoot advanceExecutionRoot
  unlessSet signingRoot advanceSigningRoot

/-- One iteration of the main loop. -/
def process : LoopEvent → Handler Unit
  | .orderedBlocks ordered => do
      processOrderedBlocks crypto ordered
      unlessSet executionRoot advanceExecutionRoot
  | .reset request => processResetRequest request
  | .executionResponse response => do
      processExecutionResponse crypto response
      advanceExecutionRoot
      unlessSet signingRoot advanceSigningRoot
  | .signingResponse response => do
      processSigningResponse response
      advanceSigningRoot
  | .commitMessage message => do
      let aggregated ← processCommitMessage message
      match aggregated with
      | none => pure ()
      | some aggregatedBlockId => advanceAggregated crypto aggregatedBlockId
  | .tick => retryBroadcastingCommitVotes

/--
A run of the main loop.  The batches received, the requests for execution and what was
sent to be persisted are kept since the last reset; `stale` holds the older requests for
execution, whose responses may still arrive.
-/
structure Trace where
  manager : BufferManager
  failure : Option Failure
  received : List OrderedBlocks
  requested : List ExecutionRequest
  stale : List ExecutionRequest
  persisted : List PersistingRequest

namespace Trace

/-- The run before anything is received. -/
def start (author : AccountAddress) (verifier : ValidatorVerifier) : Trace where
  manager := .new author verifier
  failure := none
  received := []
  requested := []
  stale := []
  persisted := []

variable (trace : Trace)

/-- What is remembered of an event before it is processed. -/
def receive : LoopEvent → Trace
  | .orderedBlocks ordered => { trace with received := trace.received ++ [ordered] }
  | .reset _ =>
    { trace with
      received := []
      requested := []
      stale := trace.stale ++ trace.requested
      persisted := [] }
  | _ => trace

/-- The run after an iteration that ended with the given outcome. -/
def record (outcome : Except Failure Unit × BufferManager) : Trace :=
  { trace with
    manager := outcome.2
    failure :=
      match outcome.1 with
      | .ok _ => none
      | .error failure => some failure
    requested := trace.requested ++ outcome.2.outbox.executionRequests
    persisted := trace.persisted ++ outcome.2.outbox.persistingRequests }

/-- Whether the main loop has ended, by a panic or a request to stop. -/
def ended : Bool := trace.failure.isSome || trace.manager.stop

/-- One iteration of the main loop, unless the loop has ended. -/
def advance (event : LoopEvent) : Trace :=
  if trace.ended then
    trace
  else
    (trace.receive event).record
      (process crypto event { trace.manager with outbox := .empty })

/-- The iterations of the main loop, one after the other. -/
def run (events : List LoopEvent) : Trace :=
  events.foldl (advance crypto) trace

/-- Every event that is processed meets a condition on the state it arrives in. -/
def Meets (condition : Trace → LoopEvent → Prop) (crypto : Crypto) (trace : Trace) :
    List LoopEvent → Prop
  | [] => True
  | event :: events =>
    (trace.ended = false → condition trace event) ∧
      Meets condition crypto (advance crypto trace event) events

variable {condition : Trace → LoopEvent → Prop} {crypto : Crypto}

/-- An initial part of a run. -/
theorem Meets.initial {trace : Trace} {past future : List LoopEvent}
    (meets : Meets condition crypto trace (past ++ future)) :
    Meets condition crypto trace past := by
  induction past generalizing trace with
  | nil => trivial
  | cons event rest ih => exact ⟨meets.1, ih meets.2⟩

/-- What holds at first and is kept by every iteration holds after a run. -/
theorem run_keeps {invariant : Trace → Prop}
    (step : ∀ trace event, invariant trace → trace.ended = false → condition trace event → invariant
      ((trace.receive event).record
        (process crypto event { trace.manager with outbox := .empty })))
    {trace : Trace}
    {events : List LoopEvent}
    (held : invariant trace)
    (meets : Meets condition crypto trace events) :
    invariant (run crypto trace events) := by
  induction events generalizing trace with
  | nil => exact held
  | cons event rest ih =>
    refine ih ?_ meets.2
    unfold advance
    split
    · exact held
    · rename_i running
      have running := Bool.not_eq_true _ ▸ running
      exact step trace event held running (meets.1 running)

end Trace

end BufferManager

end Diem
