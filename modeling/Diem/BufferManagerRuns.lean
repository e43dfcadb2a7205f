import Diem.BufferQueue
import Diem.CommitProofs

namespace Diem

open List Option
open Crypto (symbolic)

/-!
# What the pipeline delivers

In a run without surprises the pipeline neither loses nor repeats nor reorders blocks:
what it persists is what was ordered, batch after batch, and no handler panics.  The
invariant says that the buffer represents a list of batches that fit the requests sent
and the batches received, that the execution root lies at the first batch that is not
executed, and that the signing root lies at some batch.

Without conditions on what arrives the handlers do panic.  A commit decision is compared
with the stored batch by assertions, and a decision may be verified and still differ: the
quorum that orders a block signs a ledger info for it, without an execution result.  The
response to a request that was sent before a reset is compared with the batch that has
the same last block after the reset.
-/

namespace BufferManager

open Prod (fst)
open Entry (isOrdered)
open Stateful

variable {crypto : Crypto} {trace : Trace} {manager final : BufferManager}
  {items before after : List Entry} {key : HashValue} {item newItem : BufferItem}

variable (crypto trace manager items)

/-- The queue of the manager fits what was received, requested and persisted. -/
structure Intact : Prop where
  represents : manager.buffer.Represents items
  queue : QueueTidy crypto (trace.requested ++ manager.outbox.executionRequests) items
  signing : ∀ key, manager.signingRoot = some key → key ∈ items.map fst
  counted : manager.buffer.count = trace.received.length
  account :
    Account crypto trace.received (trace.persisted ++ manager.outbox.persistingRequests) items
  known : ∀ request ∈ trace.requested ++ manager.outbox.executionRequests,
    ∃ ordered ∈ trace.received,
      lastId crypto request.orderedBlocks = lastId crypto ordered.orderedBlocks

/-- The root lies at the first batch that is not executed. -/
def AtFirst (root : Cursor) : Prop :=
  root = (items.find? isOrdered).map fst

/-- Aggregated batches do not stay in the buffer. -/
def Waiting : Prop :=
  ∀ entry ∈ items, entry.2.isAggregated = false

/-- The state of the manager between two iterations of its loop. -/
structure Settled :
    Prop
    extends Intact crypto trace manager items where
  atFirst : AtFirst items manager.executionRoot
  waiting : Waiting items

/-- The handler returns and leaves a state between two iterations. -/
def Leaves (handler : Handler Unit) (manager : BufferManager) : Prop :=
  ∃ final items, handler manager = (.ok (), final) ∧ Settled crypto trace final items

variable {crypto trace manager items}

theorem Leaves.bind {α : Type} {value : α} {program : Handler α} {next : α → Handler Unit}
    (ran : program manager = (.ok value, final)) (leaves : Leaves crypto trace (next value) final) :
    Leaves crypto trace (program >>= next) manager := by
  obtain ⟨last, items, ranNext, settled⟩ := leaves
  exact ⟨last, items, bind_run ran ranNext, settled⟩

theorem Leaves.andThen {program next : Handler Unit} (first : Leaves crypto trace program manager)
    (second : ∀ final items, Settled crypto trace final items → Leaves crypto trace next final) :
    Leaves crypto trace (do program; next) manager := by
  obtain ⟨final, items, ran, settled⟩ := first
  exact .bind ran (second final items settled)

/-- A root that points nowhere is advanced. -/
theorem Leaves.unlessSet {root : BufferManager → Cursor} {advance : Handler Unit}
    (advanced : root manager = none → Leaves crypto trace advance manager)
    (kept : ∀ key, root manager = some key → Settled crypto trace manager items) :
    Leaves crypto trace (unlessSet root advance) manager := by
  cases isRoot : root manager with
  | none =>
    refine .bind rfl ?_
    rw [isRoot]
    exact advanced isRoot
  | some key =>
    refine .bind rfl ?_
    rw [isRoot]
    exact ⟨manager, items, rfl, kept key isRoot⟩

variable {root : Cursor}

/-- The first batch that is not executed has only executed ones before it. -/
theorem AtFirst.split (atFirst : AtFirst items root) (isRoot : root = some key) :
    ∃ before item after, items = before ++ (key, item) :: after ∧
      items.find? isOrdered = some (key, item) ∧
      ∀ entry ∈ before, entry.2.isOrdered = false := by
  rw [atFirst, map_eq_some_iff] at isRoot
  obtain ⟨⟨found, item⟩, isFound, rfl⟩ := isRoot
  obtain ⟨-, before, after, split, executed⟩ := find?_eq_some_iff_append.mp isFound
  refine ⟨before, item, after, split, isFound, ?_⟩
  intro entry member
  simpa [isOrdered] using executed entry member

theorem AtFirst.rootBehind (atFirst : AtFirst items root) : RootBehind items root := by
  intro key isRoot
  obtain ⟨before, item, after, split, -, executed⟩ := atFirst.split isRoot
  exact ⟨before, item, after, split, executed⟩

section

variable (intact : Intact crypto trace manager items)
include intact

/-- Asking for the execution of the first batch keeps the queue intact. -/
theorem Intact.askExecution :
    Intact crypto trace (manager.askExecution (items.find? isOrdered)) items := by
  cases found : items.find? isOrdered with
  | none => exact { intact with }
  | some entry =>
    have member := mem_of_find?_eq_some found
    have asked := intact.queue.ask intact.represents.nodup found
    rw [append_assoc] at asked
    refine { intact with queue := asked, known := ?_ }
    intro request isRequest
    have isRequest : request ∈
          (trace.requested ++ manager.outbox.executionRequests) ++
            [{ orderedBlocks := entry.2.getBlocks }] := by
      rw [append_assoc]
      exact isRequest
    rcases mem_append.mp isRequest with old | isNew
    · exact intact.known request old
    · rw [mem_singleton.mp isNew]
      obtain ⟨ordered, isReceived, isId⟩ := intact.account.received_of_mem intact.queue member
      exact ⟨ordered, isReceived, (intact.queue.keyed entry member).trans isId.symm⟩

/-- The execution root is advanced from a root behind the first batch. -/
theorem Intact.advanceExecutionRoot (waiting : Waiting items)
    (behind : RootBehind items manager.executionRoot) :
    Leaves crypto trace advanceExecutionRoot manager :=
  ⟨_, items, advanceExecutionRoot_run intact.represents behind,
    { intact.askExecution with atFirst := rfl, waiting }⟩

/-- The execution root is advanced if it points nowhere. -/
theorem Intact.unlessExecution (waiting : Waiting items)
    (atFirst : ∀ key, manager.executionRoot = some key → AtFirst items manager.executionRoot) :
    Leaves crypto trace (unlessSet executionRoot BufferManager.advanceExecutionRoot) manager :=
  .unlessSet (fun root => intact.advanceExecutionRoot waiting (by simp [RootBehind, root]))
    fun key root => { intact with atFirst := atFirst key root, waiting }

end

section

variable (settled : Settled crypto trace manager items)
include settled

/-- Only the signing root and other messages have changed. -/
theorem Settled.quiet {signingRoot : Cursor} {outbox : Outbox}
    (live : ∀ key, signingRoot = some key → key ∈ items.map fst)
    (same : SameRequests manager.outbox outbox) :
    Settled crypto trace { manager with signingRoot, outbox } items where
  represents := settled.represents
  queue := by
    rw [same.executionRequests]
    exact settled.queue
  signing := live
  counted := settled.counted
  account := by
    rw [same.persistingRequests]
    exact settled.account
  known := by
    rw [same.executionRequests]
    exact settled.known
  atFirst := settled.atFirst
  waiting := settled.waiting

theorem Settled.advanceSigningRoot : Leaves crypto trace advanceSigningRoot manager := by
  obtain ⟨signingRoot, outbox, ran, live, same⟩ :=
    advanceSigningRoot_run settled.represents settled.signing
  exact ⟨_, items, ran, settled.quiet live same⟩

/-- The signing root is advanced if it points nowhere. -/
theorem Settled.unlessSigning :
    Leaves crypto trace (unlessSet signingRoot BufferManager.advanceSigningRoot) manager :=
  .unlessSet (fun _ => settled.advanceSigningRoot) fun _ _ => settled

end

/-- A batch has moved forward in its place. -/
theorem Intact.replace (intact : Intact crypto trace manager (before ++ (key, item) :: after))
    (replaces : manager.Replaces final (before ++ (key, newItem) :: after))
    (evolves : item.Evolves key newItem) :
    Intact crypto trace final (before ++ (key, newItem) :: after) where
  represents := replaces.represents
  queue := by
    rw [replaces.executionRequests]
    exact intact.queue.replace evolves
  signing := by
    rw [replaces.signingRoot]
    simpa using intact.signing
  counted := replaces.counted.trans intact.counted
  account := by
    rw [replaces.persistingRequests]
    exact intact.account.replace evolves
  known := by
    rw [replaces.executionRequests]
    exact intact.known

theorem Waiting.replace (waiting : Waiting (before ++ (key, item) :: after))
    (waits : newItem.isAggregated = false) : Waiting (before ++ (key, newItem) :: after) := by
  unfold Waiting at waiting ⊢
  rw [forall_mem_append, forall_mem_cons] at waiting ⊢
  exact ⟨waiting.1, waits, waiting.2.2⟩

/-- A batch has moved forward, without being executed or aggregated. -/
theorem Settled.replace (settled : Settled crypto trace manager (before ++ (key, item) :: after))
    (replaces : manager.Replaces final (before ++ (key, newItem) :: after))
    (evolves : item.Evolves key newItem) (sameStage : newItem.isOrdered = item.isOrdered)
    (waits : newItem.isAggregated = false) :
    Settled crypto trace final (before ++ (key, newItem) :: after) where
  toIntact := settled.toIntact.replace replaces evolves
  atFirst := by
    have first := settled.atFirst
    rw [replaces.executionRoot]
    unfold AtFirst at first ⊢
    rw [first, find?_append, find?_append, find?_cons,
      find?_cons, isOrdered, isOrdered, sameStage]
    cases before.find? isOrdered <;> cases item.isOrdered <;> rfl
  waiting := settled.waiting.replace waits

variable {aggregated : AggregatedItem}

/-- The batches up to an aggregated one are persisted. -/
theorem Intact.advanceHead
    (intact : Intact crypto trace manager (before ++ (key, .aggregated aggregated) :: after)) :
    ∃ final, advanceHead crypto key manager = (.ok (), final) ∧ Intact crypto trace final after ∧
      final.executionRoot = forgotten (before ++ [(key, .aggregated aggregated)])
        manager.executionRoot := by
  have keyed : ∀ entry ∈ before ++ [(key, .aggregated aggregated)],
        entry.2.blockId crypto = .ok entry.1 := by
    intro entry member
    apply BufferItem.blockId_eq_ok_iff.mpr
    apply intact.queue.keyed
    simp only [mem_append, mem_cons, not_mem_nil, or_false] at member ⊢
    tauto
  obtain ⟨final, ran, removes⟩ := advanceHead_run intact.represents keyed
  refine ⟨final, ran, ?_, removes.executionRoot⟩
  have split : before ++ (key, .aggregated aggregated) :: after =
        (before ++ [(key, .aggregated aggregated)]) ++ after := by
    simp
  refine ⟨removes.represents, ?_, ?_, ?_, ?_, ?_⟩
  · rw [removes.executionRequests]
    exact (split ▸ intact.queue).drop
  · intro other isRoot
    rw [removes.signingRoot, forgotten_eq_some_iff] at isRoot
    have live := intact.signing other isRoot.1
    rw [split, map_append, mem_append] at live
    exact live.resolve_left isRoot.2
  · exact removes.counted.trans intact.counted
  · rw [removes.persistingRequests, ← append_assoc]
    exact .remove intact.queue intact.account
  · rw [removes.executionRequests]
    exact intact.known

/-- A root that was not removed still lies at the first batch. -/
theorem AtFirst.forgotten {removed : List Entry} (atFirst : AtFirst (removed ++ after) root)
    (isRoot : forgotten removed root = some key) :
    AtFirst after (BufferManager.forgotten removed root) := by
  obtain ⟨isFirst, kept⟩ := forgotten_eq_some_iff.mp isRoot
  have search := atFirst.symm.trans isFirst
  rw [find?_append] at search
  cases inRemoved : removed.find? isOrdered with
  | none =>
    rw [inRemoved, none_or] at search
    rw [isRoot]
    exact search.symm
  | some entry =>
    rw [inRemoved, some_or, map_some] at search
    have member := mem_map_of_mem (f := fst) (mem_of_find?_eq_some inRemoved)
    rw [some.inj search] at member
    exact (kept member).elim

/-- An ordered batch is appended, and asked for if nothing else waits. -/
theorem Settled.orderedBlocks {ordered : OrderedBlocks}
    (settled : Settled crypto trace manager items)
    (isLast : lastId crypto ordered.orderedBlocks = some key)
    (fresh : ∀ earlier ∈ trace.received, lastId crypto earlier.orderedBlocks ≠ some key)
    (fits : trace.received.length + 1 < 2 ^ 64) :
    Leaves crypto (trace.receive (.orderedBlocks ordered))
      (process crypto (.orderedBlocks ordered)) manager := by
  let newItem := BufferItem.newOrdered ordered.orderedBlocks ordered.orderedProof ordered.callback
  have notStored : key ∉ items.map fst := by
    intro member
    obtain ⟨entry, isEntry, rfl⟩ := mem_map.mp member
    obtain ⟨earlier, isReceived, isId⟩ := settled.account.received_of_mem settled.queue isEntry
    exact fresh earlier isReceived isId
  have notAsked : ¬ Asked crypto (trace.requested ++ manager.outbox.executionRequests) key := by
    rintro ⟨request, isRequest, isId⟩
    obtain ⟨earlier, isReceived, sameId⟩ := settled.known request isRequest
    exact fresh earlier isReceived (sameId.symm.trans isId)
  obtain ⟨buffer, pushed, represents, counted⟩ :=
    processOrderedBlocks_run settled.represents (BufferItem.blockId_eq_ok_iff.mpr isLast) notStored
      (settled.counted ▸ fits)
  have intact : Intact crypto (trace.receive (.orderedBlocks ordered))
        { manager with buffer } (items ++ [(key, newItem)]) :=
    { represents
      queue := settled.queue.push isLast trivial notAsked
      signing := fun other isRoot => by
        simpa using Or.inl (settled.signing other isRoot)
      counted := by
        simpa [Trace.receive] using counted.trans (by rw [settled.counted])
      account := settled.account.push rfl
      known := fun request isRequest => by
        obtain ⟨earlier, isReceived, sameId⟩ := settled.known request isRequest
        exact ⟨earlier, mem_append_left _ isReceived, sameId⟩ }
  have waiting : Waiting (items ++ [(key, newItem)]) :=
    forall_mem_append.mpr ⟨settled.waiting, forall_mem_singleton.mpr rfl⟩
  have atFirst : ∀ root, manager.executionRoot = some root →
        AtFirst (items ++ [(key, newItem)]) manager.executionRoot := by
    intro root isRoot
    obtain ⟨before, item, after, -, found, -⟩ := settled.atFirst.split isRoot
    rw [AtFirst, find?_append, found]
    exact isRoot
  exact .bind pushed (intact.unlessExecution waiting atFirst)

/-- A reset forgets everything. -/
theorem Settled.reset {request : ResetRequest} (waits : request.receiverWaits = true)
    (idle : manager.outbox = Outbox.empty) :
    Leaves crypto (trace.receive (.reset request)) (process crypto (.reset request)) manager := by
  refine ⟨_, [], bind_run rfl (lift_run (Fallible.require_eq_ok_iff.mpr waits) _), ?_⟩
  refine
    { represents := Buffer.new_represents
      queue := .nil
      signing := nofun
      counted := rfl
      account := ?_
      known := ?_
      atFirst := rfl
      waiting := nofun }
  · rw [idle]
    exact .nil
  · rw [idle]
    exact nofun

/-- The batch found for a response waits at or after the execution root. -/
theorem Settled.search (settled : Settled crypto trace manager items) (blockId : HashValue) :
    (manager.buffer.findElemByKey manager.executionRoot blockId = .ok none) ∨
    (manager.buffer.findElemByKey manager.executionRoot blockId = .ok (some blockId) ∧
      ∃ before root after, items = before ++ root :: after ∧
        items.find? isOrdered = some root ∧
        manager.executionRoot = some root.1 ∧
        (∀ entry ∈ before, entry.2.isOrdered = false) ∧
        blockId ∈ (root :: after).map fst) := by
  cases isRoot : manager.executionRoot with
  | none => exact .inl rfl
  | some key =>
    obtain ⟨before, item, after, split, found, executed⟩ := settled.atFirst.split isRoot
    have search := (split ▸ settled.represents).findElemByKey blockId
    by_cases member : blockId ∈ ((key, item) :: after).map fst
    · rw [if_pos member] at search
      exact .inr ⟨search, before, (key, item), after, split, found, rfl, executed, member⟩
    · rw [if_neg member] at search
      exact .inl search

/-- The response has the blocks of a request and the id of its last block. -/
def Answers (crypto : Crypto) (blockId : HashValue) (executedBlocks : List ExecutedBlock)
    (request : ExecutionRequest) : Prop :=
  lastId crypto request.orderedBlocks = some blockId ∧
    plainBlocks request.orderedBlocks = plainBlocks executedBlocks

variable (crypto trace manager) in
/--
A response answers a request since the last reset, or an older one; then the batch that
it finds, if any, must have its blocks and not be executed yet.
-/
def ResponseFits (response : ExecutionResponse) : Prop :=
  ∀ executedBlocks, response.inner = .ok executedBlocks → FollowsReconfiguration executedBlocks ∧
    ((∃ request ∈ trace.requested, Answers crypto response.blockId executedBlocks request) ∨
      ((∃ request ∈ trace.stale, Answers crypto response.blockId executedBlocks request) ∧
        ∀ item, manager.buffer.findElemByKey manager.executionRoot
            response.blockId = .ok (some response.blockId) →
          manager.stored response.blockId = some item →
            item.isOrdered = true ∧ plainBlocks item.getBlocks = plainBlocks executedBlocks))

theorem stored_of_mem (represents : manager.buffer.Represents items)
    (member : (key, item) ∈ items) : manager.stored key = some item := by
  obtain ⟨index, next, lookup, -⟩ := represents.linked.lookup member
  rw [stored, lookup]
  rfl

variable (before key root) in
/-- The root lies at or before the batch with the given id. -/
structure RootUpTo : Prop where
  behind : ∀ item after, RootBehind (before ++ (key, item) :: after) root
  removed : ∀ item, forgotten (before ++ [(key, item)]) root = none

variable {response : ExecutionResponse}

section

variable (settled : Settled crypto trace manager items)
include settled

section

variable (fits : ResponseFits crypto trace manager response)
include fits

/-- A response that finds a batch finds one that waits for it. -/
theorem Settled.target {executedBlocks : List ExecutedBlock}
    (isOk : response.inner = .ok executedBlocks)
    (found : manager.buffer.findElemByKey manager.executionRoot response.blockId =
      .ok (some response.blockId)) :
    ∃ before item after, items = before ++ (response.blockId, item) :: after ∧
      item.isOrdered = true ∧
      plainBlocks item.getBlocks = plainBlocks executedBlocks ∧
      RootUpTo before response.blockId manager.executionRoot := by
  rcases settled.search response.blockId with absent |
    ⟨-, before, root, after, split, isFirst, isRoot, executed, member⟩
  · rw [absent] at found
    cases found
  obtain ⟨⟨blockId, item⟩, isMember, sameId⟩ := mem_map.mp member
  obtain rfl : blockId = response.blockId := sameId
  have isItem : (response.blockId, item) ∈ items := split ▸ mem_append_right before isMember
  have waits : item.isOrdered = true ∧ plainBlocks item.getBlocks = plainBlocks executedBlocks := by
    rcases (fits executedBlocks isOk).2 with
      ⟨request, isRequest, isId, sameBlocks⟩ | ⟨-, stale⟩
    · have asked : request ∈ trace.requested ++ manager.outbox.executionRequests :=
        mem_append_left _ isRequest
      have sameKey := settled.queue.answered isFirst ⟨request, asked, isId⟩ split member
      have isRootItem : (response.blockId, item) = root := by
        apply inj_on_of_nodup_map settled.represents.nodup isItem (mem_of_find?_eq_some isFirst)
        exact sameKey
      have ordered : item.isOrdered = true := by
        have passes := find?_some isFirst
        rw [← isRootItem] at passes
        exact passes
      refine ⟨ordered, .trans ?_ sameBlocks⟩
      exact settled.queue.asked _ isItem request asked isId ordered
    · exact stale item found (stored_of_mem settled.represents isItem)
  obtain ⟨middle, rest, splitRest⟩ := append_of_mem isMember
  refine ⟨before ++ middle, item, rest, ?_, waits.1, waits.2, ?_, ?_⟩
  · rw [split, splitRest, append_assoc]
  · -- the root is the first of the middle part, or the batch itself
    intro newItem others key isKey
    rw [isRoot] at isKey
    cases isKey
    rw [append_assoc]
    cases middle with
    | nil =>
      cases splitRest
      exact ⟨before, newItem, others, rfl, executed⟩
    | cons first middle =>
      cases splitRest
      exact ⟨before, root.2, middle ++ (response.blockId, newItem) :: others, rfl, executed⟩
  · intro newItem
    apply eq_none_iff_forall_ne_some.mpr
    intro key isKey
    obtain ⟨isKey, kept⟩ := forgotten_eq_some_iff.mp isKey
    rw [isRoot] at isKey
    cases isKey
    cases middle with
    | nil =>
      cases splitRest
      simp at kept
    | cons first middle =>
      cases splitRest
      simp at kept

/-- A response executes the batch it finds, and the root moves on. -/
theorem Settled.processExecutionResponse :
    ∃ final, processExecutionResponse crypto response manager = (.ok (), final) ∧
      ∃ items, Intact crypto trace final items ∧ Waiting items ∧
        RootBehind items final.executionRoot := by
  have unchanged : ∃ items, Intact crypto trace manager items ∧ Waiting items ∧
    RootBehind items manager.executionRoot :=
    ⟨items, settled.toIntact, settled.waiting, settled.atFirst.rootBehind⟩
  rcases settled.search response.blockId with absent | ⟨found, -⟩
  · refine ⟨manager, bind_run rfl (lift_bind absent rfl), unchanged⟩
  cases isInner : response.inner with
  | error failure =>
    refine ⟨manager, bind_run rfl (lift_bind found ?_), unchanged⟩
    rw [isInner]
    rfl
  | ok executedBlocks =>
    obtain ⟨before, item, after, rfl, ordered, sameBlocks, upTo⟩ :=
      settled.target fits isInner found
    have isLast : lastId crypto item.getBlocks = some response.blockId :=
      settled.queue.keyed (response.blockId, item) (by simp)
    have nonempty : executedBlocks ≠ [] := by
      rintro rfl
      rw [lastId_congr sameBlocks] at isLast
      cases isLast
    rw [processExecutionResponse_found found isInner (head?_eq_some_head nonempty)]
    split
    · exact ⟨manager, rfl, unchanged⟩
    obtain ⟨newItem, advanced, evolves, executed⟩ :=
      BufferItem.advanceToExecutedOrAggregated_evolves ordered sameBlocks
        isLast (fits executedBlocks isInner).1
    obtain ⟨middle, ran, replaces⟩ := executeItem_run settled.represents advanced
    have intact := settled.toIntact.replace replaces evolves
    cases newItem with
    | aggregated aggregated =>
      obtain ⟨final, advancedHead, intactFinal, isRoot⟩ := intact.advanceHead
      refine ⟨final, bind_run ran advancedHead, after, intactFinal, ?_, ?_⟩
      · intro entry member
        exact settled.waiting entry (by simp [member])
      · rw [isRoot, replaces.executionRoot, upTo.removed]
        exact nofun
    | executed executedItem =>
      refine ⟨middle, bind_run ran rfl, _, intact, settled.waiting.replace rfl, ?_⟩
      rw [replaces.executionRoot]
      exact upTo.behind _ _
    | signed signedItem =>
      refine ⟨middle, bind_run ran rfl, _, intact, settled.waiting.replace rfl, ?_⟩
      rw [replaces.executionRoot]
      exact upTo.behind _ _
    | ordered orderedItem => cases executed

theorem Settled.executionResponse :
    Leaves crypto trace (process crypto (.executionResponse response)) manager := by
  obtain ⟨executed, ran, items, intact, waiting, behind⟩ := settled.processExecutionResponse fits
  exact .bind ran ((intact.advanceExecutionRoot waiting behind).andThen
    fun _ _ settledAsked => settledAsked.unlessSigning)

end

/-- A search from the signing root finds a batch of the queue or none. -/
theorem Settled.searchSigning (query : HashValue) :
    manager.buffer.findElemByKey manager.signingRoot query = .ok none ∨
    (manager.buffer.findElemByKey manager.signingRoot query = .ok (some query) ∧
      query ∈ items.map fst) := by
  cases isRoot : manager.signingRoot with
  | none => exact .inl rfl
  | some key =>
    obtain ⟨⟨found, item⟩, member, rfl⟩ := mem_map.mp (settled.signing key isRoot)
    obtain ⟨before, after, rfl⟩ := append_of_mem member
    have search := settled.represents.findElemByKey query
    by_cases isLater : query ∈ ((found, item) :: after).map fst
    · rw [if_pos isLater] at search
      refine .inr ⟨search, ?_⟩
      rw [map_append]
      exact mem_append_right _ isLater
    · rw [if_neg isLater] at search
      exact .inl search

/-- A signing response signs the batch it finds if that is executed. -/
theorem Settled.processSigningResponse (response : SigningResponse) :
    Leaves crypto trace (processSigningResponse response) manager := by
  unfold BufferManager.processSigningResponse
  cases response.signatureResult with
  | error failure => exact ⟨manager, items, rfl, settled⟩
  | ok signature =>
    generalize response.commitLedgerInfo.commitInfo.id = query
    rcases settled.searchSigning query with absent | ⟨found, member⟩
    · exact ⟨manager, items, bind_run rfl (lift_bind absent rfl), settled⟩
    obtain ⟨⟨key, item⟩, isMember, rfl⟩ := mem_map.mp member
    obtain ⟨before, after, rfl⟩ := append_of_mem isMember
    obtain ⟨final, newItem, ran, stays | signed, replaces⟩ :=
      signItem_run settled.represents signature
    · subst stays
      refine ⟨final, before ++ (key, newItem) :: after, bind_run rfl (lift_bind found ran), ?_⟩
      exact settled.replace replaces
        (.refl (settled.queue.certifies _ isMember)) rfl
        (settled.waiting _ isMember)
    · obtain ⟨evolves, waits⟩ :=
        BufferItem.advanceToSigned_evolves (settled.queue.certifies _ isMember) signed
      refine ⟨final, before ++ (key, newItem) :: after, bind_run rfl (lift_bind found ran), ?_⟩
      refine settled.replace replaces evolves ?_ waits
      cases item with
      | executed item =>
        cases signed
        rfl
      | ordered item | signed item | aggregated item => cases signed

theorem Settled.signingResponse (response : SigningResponse) :
    Leaves crypto trace (process crypto (.signingResponse response)) manager :=
  (settled.processSigningResponse response).andThen
    fun _ _ settledSigned => settledSigned.advanceSigningRoot

end

/-- An aggregated batch is persisted with those before it. -/
theorem Settled.aggregate (settled : Settled crypto trace manager (before ++ (key, item) :: after))
    (replaces : manager.Replaces final (before ++ (key, .aggregated aggregated) :: after))
    (evolves : item.Evolves key (.aggregated aggregated)) :
    Leaves crypto trace (advanceAggregated crypto key) final := by
  have intact := settled.toIntact.replace replaces evolves
  obtain ⟨removed, ranHead, intactRemoved, isRoot⟩ := intact.advanceHead
  have waiting : Waiting after := fun entry member => settled.waiting entry (by simp [member])
  have sameKeys : ∀ root, forgotten (before ++ [(key, .aggregated aggregated)]) root =
        forgotten (before ++ [(key, item)]) root := by
    intro root
    simp only [forgotten, map_append, map_cons, map_nil]
  have atFirst :
      ∀ root, removed.executionRoot = some root → AtFirst after removed.executionRoot := by
    intro root isSome
    rw [isRoot, replaces.executionRoot, sameKeys] at isSome ⊢
    apply AtFirst.forgotten _ isSome
    simpa using settled.atFirst
  exact .bind ranHead ((intactRemoved.unlessExecution waiting atFirst).andThen
    fun _ _ settledAsked => settledAsked.unlessSigning)

/-- The iteration for a message that changes the batch it is about. -/
theorem Settled.commitMessage {message : VerifiedEvent} (key : HashValue)
    (change : BufferItem → Fallible BufferItem) (settled : Settled crypto trace manager items)
    (changes : processCommitMessage message manager = changeItem key change manager)
    (steps : ∀ item, (key, item) ∈ items →
      ∃ newItem, change item = .ok newItem ∧ item.Evolves key newItem ∧
        (item.isOrdered = true → newItem.isOrdered = true)) :
    Leaves crypto trace (process crypto (.commitMessage message)) manager := by
  by_cases member : key ∈ items.map fst
  · obtain ⟨⟨found, item⟩, isMember, rfl⟩ := mem_map.mp member
    obtain ⟨newItem, changed, evolves, staysOrdered⟩ := steps item isMember
    obtain ⟨before, after, rfl⟩ := append_of_mem isMember
    obtain ⟨middle, ran, replaces⟩ := changeItem_run settled.represents changed
    rw [← changes] at ran
    cases isAggregated : newItem.isAggregated with
    | true =>
      cases newItem with
      | aggregated aggregated => exact .bind ran (settled.aggregate replaces evolves)
      | ordered newItem | executed newItem | signed newItem => cases isAggregated
    | false =>
      rw [isAggregated] at ran
      have sameStage : newItem.isOrdered = item.isOrdered :=
        Bool.eq_iff_iff.mpr ⟨evolves.ordered, staysOrdered⟩
      exact ⟨middle, _, bind_run ran rfl, settled.replace replaces evolves sameStage isAggregated⟩
  · have ran := changeItem_absent change settled.represents member
    rw [← changes] at ran
    exact ⟨manager, items, bind_run ran rfl, settled⟩

/-- What must hold of an event, in the state in which it arrives. -/
def EventFits (crypto : Crypto) (trace : Trace) : LoopEvent → Prop
  | .orderedBlocks ordered =>
    (∃ key, lastId crypto ordered.orderedBlocks = some key ∧
      ∀ earlier ∈ trace.received, lastId crypto earlier.orderedBlocks ≠ some key) ∧
    trace.received.length + 1 < 2 ^ 64
  | .reset request => request.receiverWaits = true
  | .executionResponse response => ResponseFits crypto trace trace.manager response
  | .signingResponse _ => True
  | .commitMessage (.commitVote _) => True
  | .commitMessage (.commitDecision decision) =>
    ∀ item, trace.manager.stored decision.ledgerInfo.commitInfo.id = some item →
      item.DecisionFits decision.ledgerInfo
  | .commitMessage .other => False
  | .tick => True

/-- Ordered batches stay ordered when a vote is counted. -/
theorem countVote_staysOrdered {validator : ValidatorVerifier} {vote : CommitVote}
    (ordered : item.isOrdered = true) : (countVote validator vote item).isOrdered = true := by
  cases item with
  | ordered item =>
    unfold countVote BufferItem.addSignatureIfMatched
    dsimp only
    split
    · rename_i updated added
      split at added
      · cases added
        rfl
      · cases added
    · rfl
  | executed item | signed item | aggregated item => cases ordered

/-- Ordered batches stay ordered when a decision arrives. -/
theorem decision_staysOrdered {proof : LedgerInfoWithSignatures}
    (returned : item.tryAdvanceToAggregatedWithLedgerInfo proof = .ok newItem)
    (ordered : item.isOrdered = true) : newItem.isOrdered = true := by
  cases item with
  | ordered item =>
    obtain ⟨-, same⟩ := Fallible.check_eq_ok_iff.mp returned
    cases same
    rfl
  | executed item | signed item | aggregated item => cases ordered

variable {event : LoopEvent}

/-- One iteration of the main loop returns and settles. -/
theorem Settled.process
    (settled : Settled crypto trace { trace.manager with outbox := .empty } items)
    (fits : EventFits crypto trace event) :
    Leaves crypto (trace.receive event) (process crypto event)
      { trace.manager with outbox := .empty } := by
  cases event with
  | orderedBlocks ordered =>
    obtain ⟨⟨key, isLast, fresh⟩, bounded⟩ := fits
    exact settled.orderedBlocks isLast fresh bounded
  | reset request => exact Settled.reset fits rfl
  | executionResponse response => exact settled.executionResponse fits
  | signingResponse response => exact settled.signingResponse response
  | commitMessage message =>
    cases message with
    | commitVote vote =>
      refine settled.commitMessage vote.commitInfo.id
        (fun item => .ok (countVote trace.manager.verifier vote item))
        (bind_run rfl rfl) ?_
      intro item member
      exact ⟨_, rfl, BufferItem.countVote_evolves (settled.queue.certifies _ member) vote,
        countVote_staysOrdered⟩
    | commitDecision decision =>
      refine settled.commitMessage decision.ledgerInfo.commitInfo.id
        (fun item => item.tryAdvanceToAggregatedWithLedgerInfo decision.ledgerInfo)
        rfl ?_
      intro item member
      obtain ⟨newItem, advanced, evolves⟩ :=
        BufferItem.tryAdvanceToAggregatedWithLedgerInfo_evolves rfl (settled.waiting _ member)
          (fits item (stored_of_mem settled.represents member))
      exact ⟨newItem, advanced, evolves, decision_staysOrdered advanced⟩
    | other => exact fits.elim
  | tick =>
    obtain ⟨outbox, ran, same⟩ := retryBroadcastingCommitVotes_run settled.represents
    exact ⟨_, items, ran, settled.quiet settled.signing same⟩

namespace Trace

/-- A run whose manager has settled after every iteration. -/
def Orderly (crypto : Crypto) (trace : Trace) : Prop :=
  trace.failure = none ∧
  ∃ items, Settled crypto trace { trace.manager with outbox := .empty } items

theorem start_orderly (crypto : Crypto) (author : AccountAddress) (validator : ValidatorVerifier) :
    (start author validator).Orderly crypto :=
  ⟨rfl, [],
    { represents := Buffer.new_represents
      queue := .nil
      signing := nofun
      counted := rfl
      account := .nil
      known := nofun
      atFirst := rfl
      waiting := nofun }⟩

/-- One iteration of the main loop. -/
theorem Orderly.step {trace : Trace} (orderly : trace.Orderly crypto)
    (fits : EventFits crypto trace event) :
    ((trace.receive event).record
      (process crypto event
        { trace.manager with outbox := .empty })).Orderly crypto := by
  obtain ⟨-, items, settled⟩ := orderly
  obtain ⟨final, newItems, ran, settledFinal⟩ := settled.process fits
  rw [ran]
  refine ⟨rfl, newItems, ?_⟩
  exact
    { settledFinal with
      queue := by simpa [record, Outbox.empty] using settledFinal.queue
      account := by simpa [record, Outbox.empty] using settledFinal.account
      known := by simpa [record, Outbox.empty] using settledFinal.known }

/-- Nothing panicked, and what was persisted is what was ordered so far. -/
structure Delivers (crypto : Crypto) (trace : Trace) : Prop where
  noFailure : trace.failure = none
  inOrder : plainBlocks (trace.persisted.flatMap PersistingRequest.blocks) <+:
    plainBlocks (trace.received.flatMap OrderedBlocks.orderedBlocks)
  inGroups : ∃ groups remaining, trace.received = groups.flatten ++ remaining ∧
    List.Forall₂ (Settles crypto) trace.persisted groups

theorem Orderly.delivers {trace : Trace} (orderly : trace.Orderly crypto) :
    trace.Delivers crypto := by
  obtain ⟨noFailure, items, settled⟩ := orderly
  have account : Account crypto trace.received trace.persisted items := by
    simpa [Outbox.empty] using settled.account
  refine ⟨noFailure, account.inOrder, ?_⟩
  obtain ⟨groups, remaining, split, settles, -⟩ := account
  exact ⟨groups, remaining, split, settles⟩

/--
In every run whose events fit the state they arrive in, no handler panics, and since the
last reset the blocks sent to be persisted are the first of those received, in their
order, each request ending with the batch whose commit proof it carries.
-/
theorem run_delivers
    (crypto : Crypto)
    (author : AccountAddress)
    (validator : ValidatorVerifier)
    (events : List LoopEvent)
    (fits : Meets (EventFits crypto) crypto (start author validator) events) :
    ∀ past, past <+: events → (run crypto (start author validator) past).Delivers crypto := by
  rintro past ⟨future, rfl⟩
  have orderly : (run crypto (start author validator) past).Orderly crypto := by
    refine run_keeps ?_ (start_orderly crypto author validator) fits.initial
    intro trace event orderly _ fits
    exact orderly.step fits
  exact orderly.delivers

theorem run_delivers_threeVotes :
    (sampleRun [(0, 5), (1, 5), (2, 5)]).persisted.length = 1 ∧
    (sampleRun [(0, 5), (1, 5), (2, 5)]).Delivers symbolic := by
  refine ⟨rfl, run_delivers symbolic 0 fourValidators
    (sampleExecution ++ sampleVotes [(0, 5), (1, 5), (2, 5)]) ?_ _ prefix_rfl⟩
  refine ⟨?_, ?_, fun _ => trivial, fun _ => trivial, fun _ => trivial, trivial⟩
  · exact fun _ => ⟨⟨_, rfl, nofun⟩, by decide⟩
  · intro _ executedBlocks isOk
    cases isOk
    refine ⟨?_, .inl ⟨_, .head _, rfl, rfl⟩⟩
    intro block member last _ ended
    rw [mem_singleton.mp member] at ended
    cases ended

/-- The ordered block as a commit decision: its quorum signed it for ordering. -/
def orderingDecision : CommitDecision where
  ledgerInfo := sampleSigned (sampleLedgerInfo sampleOrdered 5)

def earlierBlock : ExecutedBlock :=
  { sampleOrdered with
    block :=
      { blockData :=
          { sampleOrdered.block.blockData with timestampUsecs := 1 }
        signature := none } }

def sampleBatch (blocks : List ExecutedBlock) : LoopEvent :=
  .orderedBlocks
    { orderedBlocks := blocks
      orderedProof := sampleSigned (sampleLedgerInfo sampleOrdered 5)
      callback := ⟨0⟩ }

/-- Two blocks are ordered; after a reset, the second of them alone. -/
def resetEvents : List LoopEvent :=
  [sampleBatch [earlierBlock, sampleOrdered], .reset { receiverWaits := true, stop := false },
   sampleBatch [sampleOrdered]]

/-- The response to the request that was sent before the reset. -/
def lateResponse : ExecutionResponse where
  blockId := sampleOrdered.id symbolic
  inner := .ok [earlierBlock, sampleExecuted]

/--
A verified commit decision makes the manager panic: the ledger info that a quorum signed
to order a block, sent as a decision after the block is executed.  So does the response
to an execution request that was sent before a reset.
-/
theorem orderingDecision_panics :
    (orderingDecision.verify symbolic fourValidators = .ok () ∧
      (run symbolic (start 0 fourValidators)
        (sampleExecution ++ [.commitMessage (.commitDecision orderingDecision)])).failure =
        some (.panic "assertion failed: `(left == right)`")) ∧
    ((∃ request ∈ (run symbolic (start 0 fourValidators) resetEvents).stale,
        Answers symbolic lateResponse.blockId [earlierBlock, sampleExecuted] request) ∧
      (run symbolic (start 0 fourValidators)
        (resetEvents ++ [.executionResponse lateResponse])).failure =
        some (.panic "assertion failed: `(left == right)`")) :=
  ⟨⟨rfl, rfl⟩, ⟨_, .head _, rfl, rfl⟩, rfl⟩

end Trace

end BufferManager

end Diem
