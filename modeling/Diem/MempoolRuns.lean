import Diem.MempoolAgreement

namespace Diem.CoreMempool

/-!
# Runs of the mempool

The agreement of the indexes along runs for accounts with sequence numbers, and runs in
which it is lost.
-/

section Runs

variable {Data Hash : Type} [LinearOrder Hash]
  {hasher : CommittedHash Data Hash}

/-!
## Accounts with sequence numbers
-/

/-- The sender of a transaction has a sequence number, and its own one is not the last. -/
structure MempoolTransaction.Sequential (txn : MempoolTransaction Data) : Prop where
  kind : ∃ number, txn.sequenceInfo.accountSequenceNumberType = .sequential number
  hasNext : txn.txn.sequenceNumber + 1 < 2 ^ 64

theorem MempoolTransaction.Sequential.congr {first second : MempoolTransaction Data}
    (sequential : first.Sequential) (same : first.core = second.core) : second.Sequential := by
  refine ⟨?_, txn_congr same ▸ sequential.hasNext⟩
  change ∃ number, second.core.sequenceInfo.accountSequenceNumberType = _
  rw [← same]
  exact sequential.kind

namespace TransactionStore

variable {store after : TransactionStore Data Hash}

/-- All senders have sequence numbers, and no transaction has the last one. -/
def Sequential (store : TransactionStore Data Hash) : Prop :=
  ∀ pointer txn, store.lookup pointer = some txn → txn.Sequential

section

variable (sequential : store.Sequential)
include sequential

theorem Sequential.resorted (resorted : store.Resorted after) : after.Sequential := by
  intro pointer txn found
  obtain ⟨other, otherFound, same⟩ := resorted.found found
  exact (sequential pointer other otherFound).congr same

theorem Sequential.removal {gone : TxnPointer → Prop} (removal : store.Removal gone after) :
    after.Sequential :=
  fun pointer txn found => sequential pointer txn (removal.lookup_eq_some_iff.mp found).1

theorem Sequential.hasNext (indexed : store.Indexed hasher)
    (address : AccountAddress) : store.HasNext address := by
  rintro number ⟨txn, found⟩
  have next := (sequential _ txn found).hasNext
  rwa [(indexed.keyed _ txn found).number] at next

variable {txn : MempoolTransaction Data}

theorem Sequential.insert [DecidableEq Data]
    (indexed : store.Indexed hasher) (choice : Nat) (atPointer : txn.At txn.pointer)
    (own : txn.Sequential) : (insert hasher choice store txn).2.Sequential := by
  refine indexed.insert_induction choice atPointer sequential
    (fun _ _ _ sequential loses => sequential.removal loses.removal) ?_
  intro before added sequential _ free addition _ indexed
  have addedSequential : added.Sequential := by
    intro pointer other found
    rcases (addition.lookup_eq_some_iff free).mp found with ⟨-, rfl⟩ | old
    · exact own
    · exact sequential pointer other old
  exact addedSequential.resorted (indexed.processReadyTransactions _ _).2

end

variable {keys : List TTLOrderingKey}

theorem Limited.expiry (limited : store.Limited) (expiry : store.Expiry keys after) :
    after.Limited := by
  refine limited.of_subset ?_ expiry.capacity expiry.capacityPerUser
  rintro pointer ⟨txn, found⟩
  exact ⟨txn, ((expiry.lookup pointer txn).mp found).1⟩

theorem Agreement.expiry (agreement : store.Agreement hasher)
    (indexed : after.Indexed hasher) (expiry : store.Expiry keys after) :
    after.Agreement hasher := by
  exact .of_limited indexed (fun address => (agreement.split address).expiry expiry)
    (agreement.limited.expiry expiry)

theorem Sequential.expiry (sequential : store.Sequential) (expiry : store.Expiry keys after) :
    after.Sequential :=
  fun pointer txn found => sequential pointer txn ((expiry.lookup pointer txn).mp found).1

theorem Agreement.new (capacity capacityPerUser : Nat) :
    (.new capacity capacityPerUser :
      TransactionStore Data Hash).Agreement hasher := by
  have ready : ∀ pointer, ¬ (.new capacity capacityPerUser :
    TransactionStore Data Hash).Ready pointer := by
    rintro pointer ⟨key, member, -⟩
    exact RankedSet.not_mem_empty key member
  refine .of_limited (.new _ _) (fun address => ⟨⟨?_, ?_, ?_⟩, ?_⟩) ⟨?_, ?_⟩
  · rintro number ⟨txn, found⟩
    cases found
  · intro number isReady
    exact absurd isReady (ready _)
  · intro first second isReady
    exact absurd isReady (ready _)
  · intro first middle last _ _ isReady
    exact absurd isReady (ready _)
  · exact Nat.zero_le _
  · intro address
    exact Nat.zero_le _

theorem ready_of_mem_keys {pointer : TxnPointer}
    (member : pointer ∈ store.priorityIndex.keys.map OrderedQueueKey.pointer) :
    store.Ready pointer := by
  obtain ⟨key, inside, same⟩ := List.mem_map.mp member
  exact ⟨key, RankedSet.mem_keys.mp inside, same⟩

end TransactionStore

/-!
## Orderly runs
-/

namespace Mempool

variable (mempool : Mempool Data Hash)

/--
The call is about accounts with sequence numbers, brings no transaction that has the last
64-bit number or claims to be in the log, and from the sequence number that it uses for the
account no transaction in the queue lies behind a gap.
-/
def Orderly : MempoolCall Data → Prop
  | .addTxn _ _ _ submission =>
    (∃ number, submission.crsnOrSeqno = .sequential number) ∧
      submission.txn.sequenceNumber + 1 < 2 ^ 64 ∧
      (∀ timelineId, submission.timelineState ≠ .ready timelineId) ∧
      mempool.transactions.NoGap submission.txn.sender
        (mempool.accountSequenceInfo submission.txn.sender submission.crsnOrSeqno).minSeq
        (· = submission.txn.sequenceNumber)
  | .removeTransaction _ _ sender sequenceNumber isRejected =>
    isRejected = true ∨
      mempool.transactions.NoGap sender
        (max ((mempool.sequenceNumberCache.remove sender).1.getD 0)
          (Word64.wrap (sequenceNumber + 1)))
        fun _ => False
  | .gc _ _ => True
  | .gcByExpirationTime _ => True

variable {mempool : Mempool Data Hash}

theorem committedSequenceInfo_sequential (sequential : mempool.transactions.Sequential)
    (sender : AccountAddress) (sequenceNumber newSeqNumber : Nat) :
    mempool.committedSequenceInfo sender sequenceNumber newSeqNumber =
      .sequential newSeqNumber := by
  rw [committedSequenceInfo]
  split
  · rename_i txn found
    obtain ⟨number, own⟩ := (sequential (sender, sequenceNumber) txn found).kind
    rw [own]
  · rfl

variable [DecidableEq Data]

/-- All calls are orderly, each in the state after the calls before it. -/
def OrderlyRun (hasher : CommittedHash Data Hash) :
    Mempool Data Hash → List (MempoolCall Data) → Prop
  | _, [] => True
  | mempool, call :: calls =>
    mempool.Orderly call ∧ OrderlyRun hasher (mempool.call hasher call) calls

/-- An orderly call keeps the agreement. -/
theorem agreement_call (agreement : mempool.transactions.Agreement hasher)
    (sequential : mempool.transactions.Sequential) {call : MempoolCall Data}
    (orderly : mempool.Orderly call) :
    (mempool.call hasher call).transactions.Agreement hasher ∧
      (mempool.call hasher call).transactions.Sequential := by
  cases call with
  | addTxn now epochTime choice submission =>
    obtain ⟨⟨number, isSequential⟩, ownNext, notReady, noGap⟩ := orderly
    obtain ⟨used, isUsed⟩ :
        ∃ used, mempool.accountSequenceInfo submission.txn.sender
          (.sequential number) = .sequential used := by
      rw [accountSequenceInfo]
      split
      · exact ⟨_, rfl⟩
      · exact ⟨_, rfl⟩
    rw [isSequential, isUsed] at noGap
    rw [Mempool.call, addTxn, isSequential, isUsed]
    split
    · exact ⟨agreement, sequential⟩
    · rename_i late
      refine ⟨agreement.insert rfl (not_lt.mp late) notReady
          (sequential.hasNext agreement.indexed _) ?_ noGap choice ⟨rfl, rfl, rfl⟩,
        sequential.insert agreement.indexed choice ⟨rfl, rfl, rfl⟩ ⟨⟨used, rfl⟩, ownNext⟩⟩
      exact ownNext
  | removeTransaction now later sender sequenceNumber isRejected =>
    rw [Mempool.call, removeTransaction]
    dsimp only
    cases isRejected with
    | true =>
      obtain ⟨indexed, removal, -⟩ := agreement.indexed.rejectTransaction sender
      rw [if_pos rfl]
      split
      · refine ⟨.of_limited indexed (fun address => ?_)
          (agreement.limited.removal removal), sequential.removal removal⟩
        refine (agreement.split address).removal removal ?_
        intro _ _ _ _ same
        exact same
      · exact ⟨agreement, sequential⟩
    | false =>
      have noGap := orderly.resolve_left (by simp)
      rw [if_neg (by simp), committedSequenceInfo_sequential sequential]
      obtain ⟨indexed, removal, -⟩ := agreement.indexed.cleanCommittedTransactions sender
        (max ((mempool.sequenceNumberCache.remove sender).1.getD 0)
          (Word64.wrap (sequenceNumber + 1)))
      exact ⟨agreement.commitTransaction (sequential.hasNext agreement.indexed sender) noGap,
        (sequential.removal removal).resorted
          (indexed.processReadyTransactions sender (.sequential _)).2⟩
  | gc now epochTime =>
    obtain ⟨indexed, keys, -, expiry, -⟩ := agreement.indexed.gcBySystemTtl epochTime
    exact ⟨agreement.expiry indexed expiry, sequential.expiry expiry⟩
  | gcByExpirationTime blockTime =>
    obtain ⟨indexed, keys, -, expiry, -⟩ := agreement.indexed.gcByExpirationTime blockTime
    exact ⟨agreement.expiry indexed expiry, sequential.expiry expiry⟩

/-- After every call of an orderly run all indexes agree with the store. -/
theorem agreement_run
    (config : MempoolConfig)
    (calls : List (MempoolCall Data))
    (orderly : OrderlyRun hasher (.new config) calls)
    (count : Nat) :
    ((Mempool.new config).run hasher (calls.take count)).transactions.Agreement hasher := by
  suffices ∀ mempool : Mempool Data Hash, mempool.transactions.Agreement hasher →
        mempool.transactions.Sequential → OrderlyRun hasher mempool calls →
          (mempool.run hasher (calls.take count)).transactions.Agreement hasher from
    this _ (.new _ _) nofun orderly
  clear orderly
  induction calls generalizing count with
  | nil =>
    intro mempool agreement _ _
    rw [List.take_nil]
    exact agreement
  | cons call calls ih =>
    intro mempool agreement sequential orderly
    cases count with
    | zero => exact agreement
    | succ count =>
      obtain ⟨next, nextSequential⟩ := agreement_call agreement sequential orderly.1
      exact ih count _ next nextSequential orderly.2

/-!
### Concrete runs
-/

/-- A submission of the account 7. -/
def submit (sequenceNumber dbSequenceNumber : Nat)
    (timelineState : TimelineState) : MempoolCall Unit :=
  .addTxn 0 0 0
    { txn := plainTxn 7 sequenceNumber
      gasAmount := 1
      rankingScore := 1
      crsnOrSeqno := .sequential dbSequenceNumber
      timelineState
      governanceRole := .nonGovernanceRole }

/--
The number 2 is ready; the rejection of the number 1 only empties the cache, and the late
commit of the number 0 then parks the number 2.
-/
def lateCommit : List (MempoolCall Unit) :=
  [submit 2 2 .nonQualified, .removeTransaction 1 1 7 1 true, .removeTransaction 2 2 7 0 false]

/-- A transaction behind a gap that claims to be in the log. -/
def markedBehindGap : List (MempoolCall Unit) :=
  [submit 2 0 (.ready 5)]

/-- The last number is promoted, and parked behind the number zero that comes next. -/
def lastNumber : List (MempoolCall Unit) :=
  [submit (2 ^ 64 - 1) (2 ^ 64 - 1) .nonQualified]

/-- Indexes that disagree with the store. -/
theorem agreement_lost :
    let late := ((Mempool.new ⟨10, 10, 100⟩).run plainHash lateCommit).transactions
    let marked := ((Mempool.new ⟨10, 10, 100⟩).run plainHash markedBehindGap).transactions
    let wrapped := ((Mempool.new ⟨10, 10, 100⟩).run plainHash lastNumber).transactions
    (late.Ready (7, 2) ∧ late.Parked (7, 2) ∧ ¬ late.Agreement plainHash) ∧
      (marked.Stored (7, 2) ∧ ¬ marked.Ready (7, 2) ∧ ¬ marked.Parked (7, 2) ∧
        ¬ marked.Agreement plainHash) ∧
      wrapped.Ready (.last 7) ∧ wrapped.Parked (.last 7) ∧ ¬ wrapped.Agreement plainHash := by
  intro late marked wrapped
  have ready : late.Ready (7, 2) := TransactionStore.ready_of_mem_keys (by decide +kernel)
  have parked : late.Parked (7, 2) := by
    change late.parkingLotIndex.contains 7 2 = true
    decide
  have wrappedReady : wrapped.Ready (.last 7) :=
    TransactionStore.ready_of_mem_keys (by decide +kernel)
  have wrappedParked : wrapped.Parked (.last 7) := by
    change wrapped.parkingLotIndex.contains 7 (2 ^ 64 - 1) = true
    decide +kernel
  have stored : marked.Stored (7, 2) := Option.isSome_iff_exists.mp (by decide)
  have notReady : ¬ marked.Ready (7, 2) := by
    rintro ⟨key, member, -⟩
    have inside := RankedSet.mem_keys.mpr member
    cases inside
  have notParked : ¬ marked.Parked (7, 2) := by
    change ¬ marked.parkingLotIndex.contains 7 2 = true
    decide
  refine ⟨⟨ready, parked, fun agreement => ?_⟩,
    ⟨stored, notReady, notParked, fun agreement => ?_⟩,
    wrappedReady, wrappedParked, fun agreement => ?_⟩
  · exact (agreement.split 7).one 2 ready parked
  · rcases (agreement.split 7).some 2 stored with isReady | isParked
    · exact notReady isReady
    · exact notParked isParked
  · exact (agreement.split 7).one (2 ^ 64 - 1) wrappedReady wrappedParked

/-- A submission, a rejection and a garbage collection. -/
def orderlyCalls : List (MempoolCall Unit) :=
  [submit 2 2 .notReady, .removeTransaction 1 1 7 1 true, .gcByExpirationTime 5]

theorem agreement_kept :
    ((Mempool.new ⟨10, 10, 100⟩).run plainHash
      (orderlyCalls.take 3)).transactions.Agreement plainHash := by
  have noGap : (.new ⟨10, 10, 100⟩ :
        Mempool Unit (Nat ×ₗ Nat ×ₗ Nat ×ₗ Nat ×ₗ Nat)).Orderly (submit 2 2 .notReady) := by
    refine ⟨⟨2, rfl⟩, by decide, nofun, ?_⟩
    rintro ready ⟨key, member, -⟩
    exact absurd member (RankedSet.not_mem_empty key)
  have orderly : OrderlyRun plainHash (.new ⟨10, 10, 100⟩) orderlyCalls :=
    ⟨noGap, .inl rfl, trivial, trivial⟩
  exact agreement_run ⟨10, 10, 100⟩ orderlyCalls orderly 3

end Mempool

end Runs

end Diem.CoreMempool
