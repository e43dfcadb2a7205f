import Diem.BufferManagerSpec

namespace Diem

open Fallible List Option

/-!
# Batches on their way through the pipeline

Batches move forward only: a step of a batch keeps its blocks, and a batch that is
executed is never ordered again.  The batches in the buffer fit the requests for their
execution.  A batch whose execution was asked for has only executed ones before it, so
the response to a request finds a batch that waits for it, or none.

The batches not yet persisted are the last ones received, in their order, and the
persisted ones are the groups of batches before them.
-/

/-- The blocks without their execution results. -/
def plainBlocks (blocks : List ExecutedBlock) : List Block :=
  blocks.map ExecutedBlock.block

def lastId (crypto : Crypto) (blocks : List ExecutedBlock) : Option HashValue :=
  blocks.getLast?.map (ExecutedBlock.id crypto)

/-- The id of the last block does not depend on execution results. -/
theorem lastId_congr {crypto : Crypto} {first second : List ExecutedBlock}
    (same : plainBlocks first = plainBlocks second) :
    lastId crypto first = lastId crypto second := by
  have viaBlocks :
      ∀ blocks, lastId crypto blocks = (plainBlocks blocks).getLast?.map (Block.id crypto) := by
    intro blocks
    rw [lastId, plainBlocks, getLast?_map, Option.map_map]
    rfl
  rw [viaBlocks, viaBlocks, same]

/--
What execution guarantees about the end of an epoch: a block after it has no
transactions executed, and no earlier timestamp.
-/
def FollowsReconfiguration (executedBlocks : List ExecutedBlock) : Prop :=
  ∀ block ∈ executedBlocks, ∀ last, executedBlocks.getLast? = some last →
    block.stateComputeResult.hasReconfiguration = true →
    block.timestampUsecs ≠ last.timestampUsecs →
      last.isReconfigurationSuffix = true ∧ block.timestampUsecs ≤ last.timestampUsecs

namespace BufferItem

variable {crypto : Crypto} {validator : ValidatorVerifier} {item newItem : BufferItem}
  {key : HashValue}

theorem blockId_eq_ok_iff :
    item.blockId crypto = .ok key ↔ lastId crypto item.getBlocks = some key := by
  rw [blockId, lastId, bind_eq_ok_iff, map_eq_some_iff]
  simp only [expect_eq_ok_iff]
  constructor
  · rintro ⟨last, isLast, same⟩
    exact ⟨last, isLast, Except.ok.inj same⟩
  · rintro ⟨last, isLast, rfl⟩
    exact ⟨last, isLast, rfl⟩

/-- The proof that the batch gathers signatures for commits its last block. -/
def Certifies (key : HashValue) : BufferItem → Prop
  | .ordered _ => True
  | .executed item => item.commitProof.commitInfo = item.commitInfo ∧ item.commitInfo.id = key
  | .signed item => item.commitProof.commitInfo.id = key
  | .aggregated item => item.commitProof.commitInfo.id = key

/-- A batch moves forward: it keeps its blocks and is never ordered again. -/
structure Evolves (key : HashValue) (item newItem : BufferItem) : Prop where
  blocks : plainBlocks newItem.getBlocks = plainBlocks item.getBlocks
  certifies : newItem.Certifies key
  ordered : newItem.isOrdered = true → item.isOrdered = true

/-- Batches with the same blocks pass the comparison of ids. -/
theorem requireSameIds_of_same {first second : List ExecutedBlock}
    (same : plainBlocks first = plainBlocks second) :
    requireSameIds crypto first second = .ok () := by
  induction first generalizing second with
  | nil =>
    cases second with
    | nil => rfl
    | cons block rest => cases same
  | cons block rest ih =>
    cases second with
    | nil => cases same
    | cons other others =>
      obtain ⟨sameBlock, sameRest⟩ := cons.inj same
      have sameId : block.id crypto = other.id crypto := by
        rw [ExecutedBlock.id, sameBlock, ExecutedBlock.id]
      rw [requireSameIds, require, if_pos sameId]
      exact ih sameRest

variable {executedBlocks : List ExecutedBlock}

/-- Under the guarantee of execution the batch commits its last block. -/
theorem batchCommitInfo_of_follows (follows : FollowsReconfiguration executedBlocks)
    (isLast : lastId crypto executedBlocks = some key) :
    ∃ commitInfo, batchCommitInfo crypto executedBlocks = .ok commitInfo ∧ commitInfo.id = key := by
  obtain ⟨last, found, isId⟩ := map_eq_some_iff.mp isLast
  simp only [batchCommitInfo, found, expect, ok_bind]
  cases reconfig :
      reconfigTimestamp crypto executedBlocks (last.blockInfo crypto).timestampUsecs with
  | none => exact ⟨last.blockInfo crypto, rfl, isId⟩
  | some ts =>
    rw [reconfigTimestamp, filter_eq_some_iff, map_eq_some_iff] at reconfig
    obtain ⟨⟨block, isFound, rfl⟩, differs⟩ := reconfig
    have ended : block.stateComputeResult.hasReconfiguration = true := by
      have passes := find?_some isFound
      exact passes
    obtain ⟨suffix, later⟩ :=
      follows block (mem_of_find?_eq_some isFound) last found ended (of_decide_eq_true differs)
    have allowed : (last.blockInfo crypto).allowTimestampChange block.timestampUsecs = true := by
      rw [BlockInfo.allowTimestampChange, Bool.and_eq_true, decide_eq_true_iff]
      exact ⟨(Bool.and_eq_true _ _ ▸ suffix).1, later⟩
    refine ⟨{ last.blockInfo crypto with
      timestampUsecs := block.timestampUsecs }, ?_, isId⟩
    simp only [require, suffix, if_true, ok_bind, BlockInfo.changeTimestamp, allowed]
    rfl

/-- An ordered batch advances with the result of its blocks. -/
theorem advanceToExecutedOrAggregated_evolves (ordered : item.isOrdered = true)
    (same : plainBlocks item.getBlocks = plainBlocks executedBlocks)
    (isLast : lastId crypto item.getBlocks = some key)
    (follows : FollowsReconfiguration executedBlocks) :
    ∃ newItem, item.advanceToExecutedOrAggregated crypto executedBlocks validator = .ok newItem ∧
      item.Evolves key newItem ∧
      newItem.isOrdered = false := by
  rw [lastId_congr same] at isLast
  obtain ⟨commitInfo, committed, isId⟩ := batchCommitInfo_of_follows follows isLast
  cases item with
  | ordered item =>
    refine ⟨_, check_eq_ok_iff.mpr
      ⟨requireSameIds_of_same same, bind_eq_ok_iff.mpr ⟨commitInfo, committed, rfl⟩⟩, ?_⟩
    split
    · exact ⟨⟨same.symm, isId, fun _ => rfl⟩, rfl⟩
    · exact ⟨⟨same.symm, ⟨rfl, isId⟩, fun _ => rfl⟩, rfl⟩
  | executed item | signed item | aggregated item => cases ordered

/-- What a commit decision must agree with to pass the assertions. -/
def DecisionFits (proof : LedgerInfoWithSignatures) : BufferItem → Prop
  | .ordered item => item.orderedProof.commitInfo.matchOrderedOnly proof.commitInfo = true
  | .executed item => item.commitInfo = proof.commitInfo
  | .signed item => item.commitProof.commitInfo = proof.commitInfo
  | .aggregated _ => True

theorem tryAdvanceToAggregatedWithLedgerInfo_evolves {proof : LedgerInfoWithSignatures}
    (isId : proof.commitInfo.id = key) (waits : item.isAggregated = false)
    (fits : item.DecisionFits proof) :
    ∃ newItem, item.tryAdvanceToAggregatedWithLedgerInfo proof = .ok newItem ∧
      item.Evolves key newItem := by
  cases item with
  | ordered item =>
    exact ⟨.ordered { item with unverifiedSignatures := proof.signatures },
      check_eq_ok_iff.mpr ⟨require_eq_ok_iff.mpr fits, rfl⟩,
      rfl, trivial, fun _ => rfl⟩
  | executed item | signed item =>
    exact ⟨.aggregated
      { executedBlocks := item.executedBlocks
        commitProof := proof
        callback := item.callback },
      check_eq_ok_iff.mpr ⟨require_eq_ok_iff.mpr fits, rfl⟩,
      rfl, isId, nofun⟩
  | aggregated item => cases waits

theorem Evolves.trans {middle : BufferItem} (first : item.Evolves key middle)
    (second : middle.Evolves key newItem) : item.Evolves key newItem :=
  ⟨second.blocks.trans first.blocks, second.certifies,
    fun ordered => first.ordered (second.ordered ordered)⟩

variable (certifies : item.Certifies key)
include certifies

theorem Evolves.refl : item.Evolves key item :=
  ⟨rfl, certifies, fun ordered => ordered⟩

theorem advanceToSigned_evolves {author : AccountAddress} {signature : Signature}
    (returned : item.advanceToSigned author signature = .ok newItem) :
    item.Evolves key newItem ∧ newItem.isAggregated = false := by
  cases item with
  | executed item =>
    cases returned
    have isId : item.commitProof.commitInfo.id = key := by rw [certifies.1, certifies.2]
    exact ⟨⟨rfl, isId, nofun⟩, rfl⟩
  | ordered item | signed item | aggregated item => cases returned

theorem addSignatureIfMatched_evolves {vote : CommitVote}
    (returned : item.addSignatureIfMatched vote = .ok newItem) : item.Evolves key newItem := by
  cases item with
  | ordered item | executed item | signed item | aggregated item =>
    unfold addSignatureIfMatched at returned
    dsimp only at returned
    split at returned
    · cases returned
      exact ⟨rfl, certifies, fun ordered => ordered⟩
    · cases returned

theorem tryAdvanceToAggregated_evolves :
    item.Evolves key (item.tryAdvanceToAggregated validator) := by
  cases item with
  | ordered item | aggregated item => exact .refl certifies
  | executed item =>
    unfold tryAdvanceToAggregated
    dsimp only
    split
    · have isId : item.commitProof.commitInfo.id = key := by rw [certifies.1, certifies.2]
      exact ⟨rfl, isId, nofun⟩
    · exact .refl certifies
  | signed item =>
    unfold tryAdvanceToAggregated
    dsimp only
    split
    · exact ⟨rfl, certifies, nofun⟩
    · exact .refl certifies

/-- Counting a vote moves a batch forward, whatever the vote is. -/
theorem countVote_evolves (vote : CommitVote) :
    item.Evolves key (BufferManager.countVote validator vote item) := by
  unfold BufferManager.countVote
  split
  · rename_i updated returned
    have added := addSignatureIfMatched_evolves certifies returned
    exact added.trans (tryAdvanceToAggregated_evolves added.certifies)
  · exact .refl certifies

end BufferItem

namespace BufferManager

variable {crypto : Crypto} {requested : List ExecutionRequest}
  {items before after : List Entry} {key : HashValue} {item newItem : BufferItem}

/-- The execution of the batch was asked for. -/
def Asked (crypto : Crypto) (requested : List ExecutionRequest) (key : HashValue) : Prop :=
  ∃ request ∈ requested, lastId crypto request.orderedBlocks = some key

/-- The batches of the buffer and the requests for execution fit together. -/
structure QueueTidy (crypto : Crypto) (requested : List ExecutionRequest)
    (items : List Entry) : Prop where
  keyed : ∀ entry ∈ items, lastId crypto entry.2.getBlocks = some entry.1
  certifies : ∀ entry ∈ items, entry.2.Certifies entry.1
  ahead : items.Pairwise fun earlier later =>
    Asked crypto requested later.1 → earlier.2.isOrdered = false
  asked :
    ∀ entry ∈ items, ∀ request ∈ requested, lastId crypto request.orderedBlocks = some entry.1 →
      entry.2.isOrdered = true → plainBlocks entry.2.getBlocks = plainBlocks request.orderedBlocks

theorem QueueTidy.nil : QueueTidy crypto requested [] := ⟨nofun, nofun, .nil, nofun⟩

/-- A batch that was never asked for is appended. -/
theorem QueueTidy.push (tidy : QueueTidy crypto requested items)
    (keyed : lastId crypto item.getBlocks = some key) (certifies : item.Certifies key)
    (fresh : ¬ Asked crypto requested key) :
    QueueTidy crypto requested (items ++ [(key, item)]) := by
  refine ⟨?_, ?_, ?_, ?_⟩
  · exact forall_mem_append.mpr ⟨tidy.keyed, forall_mem_singleton.mpr keyed⟩
  · exact forall_mem_append.mpr ⟨tidy.certifies, forall_mem_singleton.mpr certifies⟩
  · rw [pairwise_append]
    refine ⟨tidy.ahead, pairwise_singleton _ _, ?_⟩
    intro earlier _ later isNew wasAsked
    rw [mem_singleton.mp isNew] at wasAsked
    exact (fresh wasAsked).elim
  · intro entry member request isRequest isId
    rcases mem_append.mp member with old | isNew
    · exact tidy.asked entry old request isRequest isId
    · rw [mem_singleton.mp isNew] at isId
      exact (fresh ⟨request, isRequest, isId⟩).elim

/-- Removing batches at the head. -/
theorem QueueTidy.drop (tidy : QueueTidy crypto requested (before ++ after)) :
    QueueTidy crypto requested after where
  keyed entry member := tidy.keyed entry (mem_append_right _ member)
  certifies entry member := tidy.certifies entry (mem_append_right _ member)
  ahead := (pairwise_append.mp tidy.ahead).2.1
  asked entry member := tidy.asked entry (mem_append_right _ member)

/-- A batch moves forward in its place. -/
theorem QueueTidy.replace (tidy : QueueTidy crypto requested (before ++ (key, item) :: after))
    (evolves : item.Evolves key newItem) :
    QueueTidy crypto requested (before ++ (key, newItem) :: after) := by
  have changed : ∀ entry ∈ before ++ (key, newItem) :: after,
        entry ∈ before ++ (key, item) :: after ∨ entry = (key, newItem) := by
    intro entry member
    simp only [mem_append, mem_cons] at member ⊢
    tauto
  have old : (key, item) ∈ before ++ (key, item) :: after := by simp
  have notOrdered : item.isOrdered = false → newItem.isOrdered = false := by
    intro executed
    by_contra ordered
    rw [evolves.ordered (by simpa using ordered)] at executed
    cases executed
  refine ⟨?_, ?_, ?_, ?_⟩
  · intro entry member
    rcases changed entry member with same | rfl
    · exact tidy.keyed entry same
    · rw [lastId_congr evolves.blocks]
      exact tidy.keyed (key, item) old
  · intro entry member
    rcases changed entry member with same | rfl
    · exact tidy.certifies entry same
    · exact evolves.certifies
  · have ahead := tidy.ahead
    rw [pairwise_append, pairwise_cons] at ahead ⊢
    obtain ⟨aheadBefore, ⟨aheadHere, aheadAfter⟩, across⟩ := ahead
    refine ⟨aheadBefore, ⟨?_, aheadAfter⟩, ?_⟩
    · intro later member wasAsked
      exact notOrdered (aheadHere later member wasAsked)
    · intro earlier isBefore later isLater
      rcases mem_cons.mp isLater with rfl | isAfter
      · exact across earlier isBefore (key, item) mem_cons_self
      · exact across earlier isBefore later (mem_cons_of_mem _ isAfter)
  · intro entry member request isRequest isId ordered
    rcases changed entry member with same | rfl
    · exact tidy.asked entry same request isRequest isId ordered
    · rw [evolves.blocks]
      exact tidy.asked (key, item) old request isRequest isId (evolves.ordered ordered)

variable {entry : Entry}

/-- Asking for the execution of the first batch that is not executed. -/
theorem QueueTidy.ask (tidy : QueueTidy crypto requested items)
    (distinct : (items.map Prod.fst).Nodup) (found : items.find? Entry.isOrdered = some entry) :
    QueueTidy crypto (requested ++ [{ orderedBlocks := entry.2.getBlocks }]) items := by
  obtain ⟨ordered, before, after, rfl, executed⟩ := find?_eq_some_iff_append.mp found
  have member : entry ∈ before ++ entry :: after := by simp
  have isKey := tidy.keyed entry member
  have onlyHere : ∀ other ∈ before ++ entry :: after,
        lastId crypto entry.2.getBlocks = some other.1 → other = entry := by
    intro other isMember isId
    exact inj_on_of_nodup_map distinct isMember member (some.inj (isId.symm.trans isKey))
  have notAfter : entry ∉ after := by
    have nodup := distinct.of_map
    rw [nodup_append, nodup_cons] at nodup
    exact nodup.2.1.1
  have executedBefore : ∀ earlier ∈ before, earlier.2.isOrdered = false := by
    intro earlier isBefore
    simpa [Entry.isOrdered] using executed earlier isBefore
  have askedAfter : ∀ later ∈ after,
        Asked crypto (requested ++ [{ orderedBlocks := entry.2.getBlocks }]) later.1 →
        Asked crypto requested later.1 := by
    rintro later isAfter ⟨request, isRequest, isId⟩
    rcases mem_append.mp isRequest with old | isNew
    · exact ⟨request, old, isId⟩
    · rw [mem_singleton.mp isNew] at isId
      have same := onlyHere later (by simp [isAfter]) isId
      exact (notAfter (same ▸ isAfter)).elim
  refine ⟨tidy.keyed, tidy.certifies, ?_, ?_⟩
  · have ahead := tidy.ahead
    rw [pairwise_append, pairwise_cons] at ahead ⊢
    obtain ⟨-, ⟨aheadHere, aheadAfter⟩, -⟩ := ahead
    refine ⟨pairwise_of_forall_mem_list ?_, ⟨?_, ?_⟩, ?_⟩
    · exact fun earlier isBefore _ _ _ => executedBefore earlier isBefore
    · exact fun later isAfter wasAsked =>
        aheadHere later isAfter (askedAfter later isAfter wasAsked)
    · exact aheadAfter.imp_of_mem fun _ isAfter implied wasAsked =>
        implied (askedAfter _ isAfter wasAsked)
    · exact fun earlier isBefore _ _ _ => executedBefore earlier isBefore
  · intro other isMember request isRequest isId isOrdered
    rcases mem_append.mp isRequest with old | isNew
    · exact tidy.asked other isMember request old isId isOrdered
    · rw [mem_singleton.mp isNew] at isId ⊢
      rw [onlyHere other isMember isId]

/-- What was asked for and is found from the root on waits at the root. -/
theorem QueueTidy.answered (tidy : QueueTidy crypto requested items)
    (found : items.find? Entry.isOrdered = some entry) (wasAsked : Asked crypto requested key)
    {before after : List Entry} (split : items = before ++ entry :: after)
    (member : key ∈ (entry :: after).map Prod.fst) : key = entry.1 := by
  rw [map_cons, mem_cons] at member
  rcases member with same | isAfter
  · exact same
  · obtain ⟨later, isLater, rfl⟩ := mem_map.mp isAfter
    have ahead := tidy.ahead
    rw [split, pairwise_append, pairwise_cons] at ahead
    have executed := ahead.2.1.1 later isLater wasAsked
    have ordered := find?_some found
    rw [Entry.isOrdered, executed] at ordered
    cases ordered

/-- A request to persist carries the blocks and the last id of a group. -/
def Settles (crypto : Crypto) (request : PersistingRequest) (group : List OrderedBlocks) : Prop :=
  plainBlocks request.blocks = plainBlocks (group.flatMap OrderedBlocks.orderedBlocks) ∧
    ∃ last, group.getLast? = some last ∧
      lastId crypto last.orderedBlocks = some request.commitLedgerInfo.commitInfo.id

/-- A batch in the buffer has the blocks of a batch that was received. -/
def Holds (ordered : OrderedBlocks) (entry : Entry) : Prop :=
  plainBlocks ordered.orderedBlocks = plainBlocks entry.2.getBlocks

/-- Every batch received is in a group that was persisted or in the buffer. -/
def Account (crypto : Crypto) (received : List OrderedBlocks) (persisted : List PersistingRequest)
    (items : List Entry) : Prop :=
  ∃ groups remaining, received = groups.flatten ++ remaining ∧
    List.Forall₂ (Settles crypto) persisted groups ∧
    List.Forall₂ Holds remaining items

variable {received : List OrderedBlocks} {persisted : List PersistingRequest}

theorem Account.nil : Account crypto [] [] [] := ⟨[], [], rfl, .nil, .nil⟩

/-- The batch that an entry holds, and what the entries around it hold. -/
theorem holds_split {remaining : List OrderedBlocks}
    (held : List.Forall₂ Holds remaining (before ++ entry :: after)) :
    ∃ first ordered rest, remaining = first ++ ordered :: rest ∧
      List.Forall₂ Holds first before ∧ Holds ordered entry ∧
      List.Forall₂ Holds rest after := by
  obtain ⟨ordered, rest, holds, heldAfter, shape⟩ :=
    forall₂_cons_right_iff.mp (forall₂_drop_append _ _ _ held)
  refine ⟨_, ordered, rest, ?_, forall₂_take_append _ _ _ held, holds, heldAfter⟩
  rw [← shape, take_append_drop]

/-- Batches that are held have the same blocks in the same order. -/
theorem plainBlocks_of_holds {group : List OrderedBlocks} (held : List.Forall₂ Holds group items) :
    plainBlocks (blocksOf items) = plainBlocks (group.flatMap OrderedBlocks.orderedBlocks) := by
  induction held with
  | nil => rfl
  | cons holds _ ih =>
    simp only [blocksOf, plainBlocks, flatMap_cons, map_append, Holds] at ih holds ⊢
    rw [ih, holds]

theorem Account.push {ordered : OrderedBlocks} (account : Account crypto received persisted items)
    (holds : Holds ordered (key, item)) :
    Account crypto (received ++ [ordered]) persisted (items ++ [(key, item)]) := by
  obtain ⟨groups, remaining, rfl, settled, held⟩ := account
  refine ⟨groups, remaining ++ [ordered], append_assoc _ _ _, settled, ?_⟩
  exact rel_append held (.cons holds .nil)

theorem Account.replace
    (account : Account crypto received persisted (before ++ (key, item) :: after))
    (evolves : item.Evolves key newItem) :
    Account crypto received persisted (before ++ (key, newItem) :: after) := by
  obtain ⟨groups, remaining, rfl, settled, held⟩ := account
  refine ⟨groups, remaining, rfl, settled, ?_⟩
  obtain ⟨first, ordered, others, rfl, heldBefore, holds, heldAfter⟩ := holds_split held
  have stillHolds : Holds ordered (key, newItem) := .trans holds evolves.blocks.symm
  exact rel_append heldBefore (.cons stillHolds heldAfter)

/-- The batches up to an aggregated one become a group that is persisted. -/
theorem Account.remove {aggregated : AggregatedItem}
    (tidy : QueueTidy crypto requested (before ++ (key, .aggregated aggregated) :: after))
    (account :
      Account crypto received persisted (before ++ (key, .aggregated aggregated) :: after)) :
    Account crypto received
      (persisted ++
        [persistRequest (blocksOf (before ++ [(key, .aggregated aggregated)])) aggregated])
      after := by
  obtain ⟨groups, remaining, rfl, settled, held⟩ := account
  obtain ⟨first, ordered, others, rfl, heldBefore, holds, heldAfter⟩ := holds_split held
  have member :
      (key, .aggregated aggregated) ∈ before ++ (key, .aggregated aggregated) :: after := by
    simp
  have settles : Settles crypto
        (persistRequest (blocksOf (before ++ [(key, .aggregated aggregated)])) aggregated)
        (first ++ [ordered]) := by
    refine ⟨?_, ordered, by simp, ?_⟩
    · exact plainBlocks_of_holds (rel_append heldBefore (.cons holds .nil))
    · rw [lastId_congr holds, tidy.keyed _ member]
      exact congrArg some (tidy.certifies _ member).symm
  refine ⟨groups ++ [first ++ [ordered]], others, ?_, ?_, heldAfter⟩
  · simp
  · exact rel_append settled (.cons settles .nil)

/-- The ids of the batches in the buffer are ids of batches received. -/
theorem Account.received_of_mem (tidy : QueueTidy crypto requested items)
    (account : Account crypto received persisted items) (member : entry ∈ items) :
    ∃ ordered ∈ received, lastId crypto ordered.orderedBlocks = some entry.1 := by
  obtain ⟨groups, remaining, rfl, -, held⟩ := account
  obtain ⟨before, after, rfl⟩ := append_of_mem member
  obtain ⟨first, ordered, others, rfl, -, holds, -⟩ := holds_split held
  refine ⟨ordered, by simp, ?_⟩
  rw [lastId_congr holds]
  exact tidy.keyed entry member

/-- What was persisted is an initial part of what was received. -/
theorem Account.inOrder (account : Account crypto received persisted items) :
    plainBlocks (persisted.flatMap PersistingRequest.blocks) <+:
      plainBlocks (received.flatMap OrderedBlocks.orderedBlocks) := by
  obtain ⟨groups, remaining, rfl, settled, -⟩ := account
  have sameBlocks : plainBlocks (persisted.flatMap PersistingRequest.blocks) =
        plainBlocks (groups.flatten.flatMap OrderedBlocks.orderedBlocks) := by
    induction settled with
    | nil => rfl
    | cons settles _ ih =>
      have same := settles.1
      simp only [plainBlocks, flatMap_cons, map_append, flatten_cons, flatMap_append] at ih same ⊢
      rw [ih, same]
  rw [sameBlocks, plainBlocks, plainBlocks, flatMap_append, map_append]
  exact prefix_append _ _

end BufferManager

end Diem
