import Diem.BufferManager
import Diem.BufferSpec

namespace Diem

open List Nat

/-!
# What the handlers do to the queue

The buffer represents a list of batches.  On such a buffer every handler returns, and
what it does to the manager is said in terms of the list: it appends a batch, replaces
one in its place, or removes the batches up to one.
-/

namespace BufferManager

open Prod (fst)
open Stateful

/-- A batch under the id of its last block. -/
abbrev Entry := HashValue × BufferItem

variable {crypto : Crypto} {manager : BufferManager} {items before after : List Entry}
  {key : HashValue} {item newItem : BufferItem}

/-- A batch that is not executed. -/
def Entry.isOrdered (entry : Entry) : Bool := entry.2.isOrdered

/-- What was asked to be executed or persisted is the same. -/
structure SameRequests (before after : Outbox) : Prop where
  executionRequests : after.executionRequests = before.executionRequests
  persistingRequests : after.persistingRequests = before.persistingRequests

section

variable (represents : manager.buffer.Represents items)
include represents

/-- Ordering a batch appends it. -/
theorem processOrderedBlocks_run {ordered : OrderedBlocks}
    (isId : (BufferItem.newOrdered ordered.orderedBlocks ordered.orderedProof
      ordered.callback).blockId crypto = .ok key)
    (fresh : key ∉ items.map fst)
    (fits : manager.buffer.count + 1 < 2 ^ 64) :
    ∃ buffer, processOrderedBlocks crypto ordered manager = (.ok (), { manager with buffer }) ∧
      buffer.Represents
        (items ++
          [(key,
            BufferItem.newOrdered ordered.orderedBlocks ordered.orderedProof ordered.callback)]) ∧
      buffer.count = manager.buffer.count + 1 := by
  obtain ⟨buffer, pushed, pushedRepresents, counted⟩ := represents.pushBack isId fresh fits
  refine ⟨buffer, ?_, pushedRepresents, counted⟩
  exact bind_run rfl (lift_bind pushed rfl)

/-- The manager after it asked for the execution of a batch, if there is one. -/
def askExecution (manager : BufferManager) (found : Option Entry) : BufferManager :=
  { manager with
    executionRoot := found.map fst
    outbox :=
      match found with
      | none => manager.outbox
      | some entry => manager.outbox.sendExecution { orderedBlocks := entry.2.getBlocks } }

/-- The root lies at a batch with only executed ones before it. -/
def RootBehind (items : List Entry) (root : Cursor) : Prop :=
  ∀ key, root = some key → ∃ before item after,
    items = before ++ (key, item) :: after ∧ ∀ entry ∈ before, entry.2.isOrdered = false

/-- The execution root moves to the first batch that is not executed. -/
theorem advanceExecutionRoot_run (behind : RootBehind items manager.executionRoot) :
    advanceExecutionRoot manager =
      (.ok (), manager.askExecution (items.find? Entry.isOrdered)) := by
  have search := represents.findElemFrom_or_head behind
  change _ = Except.ok ((items.find? Entry.isOrdered).map fst) at search
  refine bind_run rfl (lift_bind search (bind_run rfl ?_))
  cases found : items.find? Entry.isOrdered with
  | none => rfl
  | some entry =>
    have lookup := represents.get (mem_of_find?_eq_some found)
    exact lift_bind lookup rfl

/-- The signing root moves to a batch in the buffer. -/
theorem advanceSigningRoot_run
    (live : ∀ key, manager.signingRoot = some key → key ∈ items.map fst) :
    ∃ signingRoot outbox,
      advanceSigningRoot manager = (.ok (), { manager with signingRoot, outbox }) ∧
      (∀ key, signingRoot = some key → key ∈ items.map fst) ∧
      SameRequests manager.outbox outbox := by
  obtain ⟨found, search, passes⟩ := represents.findElemFrom_live live
  cases found with
  | none =>
    refine ⟨none, manager.outbox, ?_, by simp, rfl, rfl⟩
    exact bind_run rfl (lift_bind search (bind_run rfl rfl))
  | some entry =>
    obtain ⟨member, isExecuted⟩ := passes entry rfl
    have lookup := represents.get member
    obtain ⟨key, item⟩ := entry
    cases item with
    | executed item =>
      let request : SigningRequest :=
        { orderedLedgerInfo := item.orderedProof
          commitLedgerInfo := item.commitProof.ledgerInfo }
      refine ⟨some key, manager.outbox.sendSigning request, ?_, ?_, rfl, rfl⟩
      · exact bind_run rfl (lift_bind search (bind_run rfl (lift_bind lookup (lift_bind rfl rfl))))
      · rintro _ ⟨⟩
        exact mem_map_of_mem member
    | ordered item | signed item | aggregated item => cases isExecuted

end

/-- A root after batches were removed. -/
def forgotten (removed : List Entry) (root : Cursor) : Cursor :=
  root.filter fun key => key ∉ removed.map fst

theorem forgotten_eq_some_iff {removed : List Entry} {root : Cursor} :
    forgotten removed root = some key ↔ root = some key ∧ key ∉ removed.map fst := by
  rw [forgotten, Option.filter_eq_some_iff, decide_eq_true_iff]

theorem forgotten_cons (key : HashValue) (item : BufferItem) (removed : List Entry)
    (root : Cursor) :
    forgotten ((key, item) :: removed) root =
      forgotten removed (if root = some key then none else root) := by
  apply Option.ext
  intro other
  rw [forgotten_eq_some_iff, forgotten_eq_some_iff, map_cons, mem_cons, not_or]
  constructor
  · rintro ⟨rfl, notKey, notRemoved⟩
    rw [if_neg fun same => notKey (Option.some.inj same)]
    exact ⟨rfl, notRemoved⟩
  · rintro ⟨isRoot, notRemoved⟩
    split at isRoot
    · cases isRoot
    · rename_i notKey
      refine ⟨isRoot, ?_, notRemoved⟩
      rintro rfl
      exact notKey isRoot

theorem forgotten_nil (root : Cursor) : forgotten [] root = root := by
  cases root <;> rfl

/-- The blocks of batches, one batch after the other. -/
def blocksOf (entries : List Entry) : List ExecutedBlock :=
  entries.flatMap fun entry => entry.2.getBlocks

/-- The request that persists the blocks up to an aggregated batch. -/
def persistRequest (blocks : List ExecutedBlock) (item : AggregatedItem) : PersistingRequest where
  blocks
  commitLedgerInfo := item.commitProof
  callback := item.callback

/-- The manager has removed batches and sent one request to persist them. -/
structure Removes (manager final : BufferManager) (removed after : List Entry)
    (request : PersistingRequest) : Prop where
  represents : final.buffer.Represents after
  counted : final.buffer.count = manager.buffer.count
  executionRoot : final.executionRoot = forgotten removed manager.executionRoot
  signingRoot : final.signingRoot = forgotten removed manager.signingRoot
  executionRequests : final.outbox.executionRequests = manager.outbox.executionRequests
  persistingRequests :
    final.outbox.persistingRequests = manager.outbox.persistingRequests ++ [request]

/-- What is sent with an aggregated batch. -/
theorem sendPersisting_run (manager : BufferManager) (blocks : List ExecutedBlock)
    (item : AggregatedItem) :
    ∃ outbox, sendPersisting blocks item manager = (.ok (), { manager with outbox }) ∧
      outbox.executionRequests = manager.outbox.executionRequests ∧
      outbox.persistingRequests =
        manager.outbox.persistingRequests ++ [persistRequest blocks item] := by
  refine ⟨_, bind_run rfl rfl, ?_, ?_⟩
  · change (if _ then _ else _ : Outbox).executionRequests = _
    split <;> rfl
  · change (if _ then _ else _ : Outbox).persistingRequests ++ _ = _
    split <;> rfl

/-- One iteration of the loop removes the first batch. -/
theorem advanceHeadLoop_pop {target blockId : HashValue} {buffer : Buffer BufferItem}
    (popped : manager.buffer.popFront = .ok (some item, buffer))
    (isId : item.blockId crypto = .ok blockId) (fuel : Nat) (blocks : List ExecutedBlock) :
    advanceHeadLoop crypto target (fuel + 1) blocks manager = (if blockId = target then do
      let aggregatedItem ← Stateful.lift item.unwrapAggregated
      sendPersisting (blocks ++ item.getBlocks) aggregatedItem
      else
        advanceHeadLoop crypto target fuel (blocks ++ item.getBlocks))
        (forgetRoots blockId { manager with buffer }) :=
  bind_run rfl (lift_bind popped (bind_run rfl (lift_bind isId (bind_run rfl rfl))))

section

variable {aggregated : AggregatedItem}
  (represents : manager.buffer.Represents (before ++ (key, .aggregated aggregated) :: after))
  (keyed :
    ∀ entry ∈ before ++ [(key, .aggregated aggregated)], entry.2.blockId crypto = .ok entry.1)
include represents keyed

/--
The loop removes the batches up to the aggregated one.  The induction is on the batches
before it, whose ids differ from its own.
-/
theorem advanceHeadLoop_run {fuel : Nat} (enough : before.length < fuel)
    (blocks : List ExecutedBlock) :
    ∃ final, advanceHeadLoop crypto key fuel blocks manager = (.ok (), final) ∧
      manager.Removes final (before ++ [(key, .aggregated aggregated)]) after
        (persistRequest (blocks ++ blocksOf (before ++ [(key, .aggregated aggregated)]))
          aggregated) := by
  induction before generalizing manager fuel blocks with
  | nil =>
    obtain ⟨fuel, rfl⟩ := exists_eq_succ_of_ne_zero enough.ne'
    obtain ⟨buffer, popped, represented, counted⟩ := represents.popFront_cons
    have isId := keyed _ (mem_append_right _ mem_cons_self)
    obtain ⟨outbox, sent, requests, persisted⟩ :=
      sendPersisting_run (forgetRoots key { manager with buffer })
        (blocks ++ aggregated.executedBlocks) aggregated
    refine ⟨{ forgetRoots key { manager with buffer } with outbox }, ?_, ?_⟩
    · rw [advanceHeadLoop_pop popped isId, if_pos rfl]
      exact lift_bind rfl sent
    · refine ⟨represented, counted, ?_, ?_, requests, ?_⟩
      · rw [nil_append, forgotten_cons, forgotten_nil]
        rfl
      · rw [nil_append, forgotten_cons, forgotten_nil]
        rfl
      · rw [persisted, nil_append, blocksOf, flatMap_singleton]
        rfl
  | cons entry rest ih =>
    obtain ⟨fuel, rfl⟩ := exists_eq_succ_of_ne_zero (ne_zero_of_lt enough)
    obtain ⟨blockId, item⟩ := entry
    obtain ⟨buffer, popped, represented, counted⟩ := represents.popFront_cons
    have isId : item.blockId crypto = .ok blockId := keyed (blockId, item) mem_cons_self
    have notTarget : blockId ≠ key := by
      have nodup := represents.nodup
      simp only [cons_append, map_cons, nodup_cons, map_append, mem_append, mem_cons] at nodup
      exact fun same => nodup.1 (.inr (.inl same))
    obtain ⟨final, ran, removes⟩ := ih
      (show (forgetRoots blockId { manager with buffer }).buffer.Represents
        (rest ++ (key, .aggregated aggregated) :: after) from represented)
      (fun entry member => keyed entry (mem_cons_of_mem _ member))
      (lt_of_succ_lt_succ enough) (blocks ++ item.getBlocks)
    refine ⟨final, ?_, ?_⟩
    · rw [advanceHeadLoop_pop popped isId, if_neg notTarget]
      exact ran
    · refine ⟨removes.represents, removes.counted.trans counted, ?_, ?_,
        removes.executionRequests, ?_⟩
      · rw [removes.executionRoot, cons_append, forgotten_cons]
        rfl
      · rw [removes.signingRoot, cons_append, forgotten_cons]
        rfl
      · rw [removes.persistingRequests]
        simp [blocksOf, forgetRoots]

/-- The batches up to an aggregated one are removed. -/
theorem advanceHead_run :
    ∃ final, advanceHead crypto key manager = (.ok (), final) ∧
      manager.Removes final (before ++ [(key, .aggregated aggregated)]) after
        (persistRequest (blocksOf (before ++ [(key, .aggregated aggregated)])) aggregated) := by
  have short := represents.linked.length_le (zero_le _) represents.bounded
  have enough : before.length < manager.buffer.count + 1 := by
    rw [length_append] at short
    omega
  obtain ⟨final, ran, removes⟩ := advanceHeadLoop_run represents keyed enough []
  exact ⟨final, bind_run rfl ran, removes⟩

end

/-- The manager has replaced one batch, and has sent no requests for it. -/
structure Replaces (manager final : BufferManager) (items : List Entry) : Prop where
  represents : final.buffer.Represents items
  counted : final.buffer.count = manager.buffer.count
  executionRoot : final.executionRoot = manager.executionRoot
  signingRoot : final.signingRoot = manager.signingRoot
  executionRequests : final.outbox.executionRequests = manager.outbox.executionRequests
  persistingRequests : final.outbox.persistingRequests = manager.outbox.persistingRequests

variable {executedBlocks : List ExecutedBlock}

/-- What a response does to the batch it finds. -/
theorem processExecutionResponse_found {response : ExecutionResponse} {first : ExecutedBlock}
    (found : manager.buffer.findElemByKey manager.executionRoot response.blockId =
      .ok (some response.blockId))
    (isInner : response.inner = .ok executedBlocks)
    (isFirst : executedBlocks.head? = some first) :
    processExecutionResponse crypto response manager = (if first.isReconfigurationSuffix then
      pure ()
      else do
        let newItem ← executeItem crypto response.blockId executedBlocks
        if newItem.isAggregated then
          advanceHead crypto response.blockId
        else
          pure () : Handler Unit) manager := by
  refine bind_run rfl (lift_bind found ?_)
  rw [isInner]
  exact lift_bind (Fallible.expect_eq_ok_iff.mpr isFirst) rfl

/-- A batch that is not in the buffer is not changed. -/
theorem changeItem_absent (change : BufferItem → Fallible BufferItem)
    (represents : manager.buffer.Represents items) (absent : key ∉ items.map fst) :
    changeItem key change manager = (.ok none, manager) := by
  have search := represents.findElemByKey_head key
  rw [if_neg absent] at search
  exact bind_run rfl (lift_bind search rfl)

section

variable (represents : manager.buffer.Represents (before ++ (key, item) :: after))
include represents

/-- A batch advances with its execution result. -/
theorem executeItem_run
    (advanced :
      item.advanceToExecutedOrAggregated crypto executedBlocks manager.verifier = .ok newItem) :
    ∃ final, executeItem crypto key executedBlocks manager = (.ok newItem, final) ∧
      manager.Replaces final (before ++ (key, newItem) :: after) := by
  obtain ⟨taken, isTaken, canSet⟩ := represents.take_set
  obtain ⟨buffer, isSet, represented, counted⟩ := canSet newItem
  refine ⟨{ manager with buffer }, ?_, ⟨represented, counted, rfl, rfl, rfl, rfl⟩⟩
  exact bind_run rfl (lift_bind isTaken (bind_run rfl
    (lift_bind advanced (lift_bind isSet (bind_run rfl rfl)))))

/-- A batch that is executed is signed, and others stay as they are. -/
theorem signItem_run (signature : Signature) :
    ∃ final newItem, signItem key signature manager = (.ok (), final) ∧
      (newItem = item ∨ item.advanceToSigned manager.author signature = .ok newItem) ∧
      manager.Replaces final (before ++ (key, newItem) :: after) := by
  obtain ⟨taken, isTaken, canSet⟩ := represents.take_set
  cases item with
  | executed item =>
    let vote : CommitVote :=
      { author := manager.author
        ledgerInfo := item.commitProof.ledgerInfo
        signature }
    let signedItem : SignedItem :=
      { executedBlocks := item.executedBlocks
        commitProof := item.commitProof
        callback := item.callback
        commitVote := vote }
    obtain ⟨buffer, isSet, represented, counted⟩ := canSet (.signed signedItem)
    refine ⟨{ manager with buffer, outbox := manager.outbox.broadcast vote },
      .signed signedItem, ?_, .inr rfl,
      ⟨represented, counted, rfl, rfl, rfl, rfl⟩⟩
    exact bind_run rfl (lift_bind isTaken (bind_run rfl
      (lift_bind rfl (lift_bind rfl (lift_bind isSet (bind_run rfl rfl))))))
  | ordered item | signed item | aggregated item =>
    obtain ⟨buffer, isSet, represented, counted⟩ := canSet _
    refine ⟨{ manager with buffer }, _, ?_, .inl rfl, ⟨represented, counted, rfl, rfl, rfl, rfl⟩⟩
    exact bind_run rfl (lift_bind isTaken (bind_run rfl (lift_bind isSet rfl)))

/-- A batch in the buffer is changed in its place. -/
theorem changeItem_run {change : BufferItem → Fallible BufferItem}
    (changed : change item = .ok newItem) :
    ∃ final, changeItem key change manager =
      (.ok (if newItem.isAggregated then some key else none), final) ∧
      manager.Replaces final (before ++ (key, newItem) :: after) := by
  have search := represents.findElemByKey_head key
  rw [if_pos (by simp)] at search
  obtain ⟨taken, isTaken, canSet⟩ := represents.take_set
  obtain ⟨buffer, isSet, represented, counted⟩ := canSet newItem
  refine ⟨{ manager with buffer }, ?_, ⟨represented, counted, rfl, rfl, rfl, rfl⟩⟩
  exact bind_run rfl (lift_bind search (lift_bind isTaken
    (bind_run rfl (lift_bind changed (lift_bind isSet (bind_run rfl rfl))))))

end

/-- Votes are sent again for signed batches at the head. -/
theorem retryLoop_run {fuel : Nat} (represents : manager.buffer.Represents (before ++ after))
    (enough : after.length ≤ fuel) :
    ∃ outbox,
      retryLoop fuel (after.map fst).head? manager = (.ok (), { manager with outbox }) ∧
      SameRequests manager.outbox outbox := by
  induction after generalizing before manager fuel with
  | nil =>
    refine ⟨manager.outbox, ?_, rfl, rfl⟩
    cases fuel <;> rfl
  | cons entry rest ih =>
    obtain ⟨fuel, rfl⟩ := exists_eq_succ_of_ne_zero (ne_zero_of_lt enough)
    obtain ⟨key, item⟩ := entry
    have lookup := represents.get (mem_append_right _ mem_cons_self)
    have next := represents.getNext
    cases item with
    | signed item =>
      have moved : ({ manager with
            outbox := manager.outbox.broadcast item.commitVote } : BufferManager).buffer.Represents
            ((before ++ [(key, .signed item)]) ++ rest) := by
        simpa using represents
      obtain ⟨outbox, ran, same⟩ := ih moved (le_of_succ_le_succ enough)
      refine ⟨outbox, ?_, { same with }⟩
      exact bind_run rfl (lift_bind lookup (lift_bind rfl (bind_run rfl (lift_bind next ran))))
    | ordered item | executed item | aggregated item =>
      refine ⟨manager.outbox, ?_, rfl, rfl⟩
      exact bind_run rfl (lift_bind lookup rfl)

/-- Sending the votes again changes nothing else. -/
theorem retryBroadcastingCommitVotes_run (represents : manager.buffer.Represents items) :
    ∃ outbox, retryBroadcastingCommitVotes manager = (.ok (), { manager with outbox }) ∧
      SameRequests manager.outbox outbox := by
  have short := represents.linked.length_le (zero_le _) represents.bounded
  rw [zero_add] at short
  obtain ⟨outbox, ran, same⟩ :=
    retryLoop_run (show manager.buffer.Represents ([] ++ items) from represents) short
  rw [← represents.headCursor] at ran
  exact ⟨outbox, bind_run rfl ran, same⟩

end BufferManager

end Diem
