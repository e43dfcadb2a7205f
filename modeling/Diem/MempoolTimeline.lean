import Diem.MempoolRuns

namespace Diem.CoreMempool

open Mempool

open PriorityIndex (pointer_makeKey)

/-!
# The log for broadcasting

Which transactions are in the log of the ready ones.  The position of a transaction in the
log is kept as its mark; garbage collection takes transactions out of the log that keep
their mark, so that they are never logged again.
-/

section Timeline

variable {Data Hash : Type} [LinearOrder Hash]
  {hasher : CommittedHash Data Hash}

namespace TransactionStore

variable {store after : TransactionStore Data Hash} {strict : Prop}
  {gone : TxnPointer → Prop} {txn : MempoolTransaction Data}

/--
What is in the log has its mark.  In the strict case what has a mark is in the log and in
the queue, and what can still get one is not in the queue.
-/
structure Logged (store : TransactionStore Data Hash) (strict : Prop) : Prop where
  fresh : ∀ id pointer,
    store.timelineIndex.timeline.get? id = some pointer → id < store.timelineIndex.timelineId
  marked : ∀ id pointer, store.timelineIndex.timeline.get? id = some pointer →
    ∃ txn, store.lookup pointer = some txn ∧ txn.timelineState = .ready id
  logged : strict →
    ∀ pointer txn id, store.lookup pointer = some txn → txn.timelineState = .ready id →
      store.timelineIndex.timeline.get? id = some pointer ∧
        store.Ready pointer ∧ ¬ store.Parked pointer
  waiting : strict → ∀ pointer txn,
    store.lookup pointer = some txn → txn.timelineState = .notReady → ¬ store.Ready pointer

section

variable (logged : store.Logged strict)
include logged

/-- Transactions leave the log and the queue. -/
theorem Logged.unlogs (unlogs : store.Unlogs gone after)
    (old : ∀ pointer txn, after.lookup pointer = some txn → store.lookup pointer = some txn)
    (kept : ∀ pointer, ¬ gone pointer → after.lookup pointer = store.lookup pointer)
    (ready : ∀ pointer, after.Ready pointer ↔ store.Ready pointer ∧ ¬ gone pointer)
    (parked : ∀ pointer, after.Parked pointer → store.Parked pointer ∨ gone pointer)
    (spared : strict → ∀ pointer txn id,
      after.lookup pointer = some txn → txn.timelineState = .ready id → ¬ gone pointer) :
    after.Logged strict where
  fresh := by
    intro id pointer inLog
    rw [unlogs.next]
    exact logged.fresh id pointer ((unlogs.log id pointer).mp inLog).1
  marked := by
    intro id pointer inLog
    obtain ⟨inStore, others⟩ := (unlogs.log id pointer).mp inLog
    obtain ⟨txn, found, mark⟩ := logged.marked id pointer inStore
    refine ⟨txn, ?_, mark⟩
    rw [kept pointer fun isGone => others pointer txn found isGone mark]
    exact found
  logged := by
    intro isStrict pointer txn id found mark
    have notGone := spared isStrict pointer txn id found mark
    obtain ⟨inLog, isReady, notParked⟩ :=
      logged.logged isStrict pointer txn id (old pointer txn found) mark
    refine ⟨(unlogs.log id pointer).mpr ⟨inLog, ?_⟩, (ready pointer).mpr ⟨isReady, notGone⟩,
      fun isParked => (parked pointer isParked).elim notParked notGone⟩
    intro other otherTxn otherFound isGone otherMark
    -- two transactions with one mark would be at one position of the log
    have same := (logged.logged isStrict other otherTxn id otherFound otherMark).1
    rw [inLog] at same
    cases same
    exact notGone isGone
  waiting := by
    intro isStrict pointer txn found state isReady
    exact logged.waiting isStrict pointer txn (old pointer txn found) state
      ((ready pointer).mp isReady).1

theorem Logged.loses (loses : store.Loses hasher nothing nothing gone after) :
    after.Logged strict := by
  refine logged.unlogs loses.unlogs ?_ loses.removal.kept loses.removal.ready ?_ ?_
  · exact fun _ _ found => (loses.removal.lookup_eq_some_iff.mp found).1
  · exact fun pointer isParked => .inl ((loses.removal.parked pointer).mp isParked).1
  · exact fun _ _ _ _ found _ => (loses.removal.lookup_eq_some_iff.mp found).2

/-- What is behind an expired transaction has no mark, or has expired as well. -/
def NoneBehind (store : TransactionStore Data Hash) (keys : List TTLOrderingKey) : Prop :=
  ∀ pointer txn id, store.lookup pointer = some txn → txn.timelineState = .ready id →
    Behind keys pointer → ∃ key ∈ keys, key.pointer = pointer

theorem Logged.expiry {keys : List TTLOrderingKey} (expiry : store.Expiry keys after)
    (unlogs : store.Unlogs (Behind keys) after) (spared : strict → store.NoneBehind keys) :
    after.Logged strict := by
  refine logged.unlogs unlogs ?_ ?_ ?_ ?_ ?_
  · exact fun pointer txn found => ((expiry.lookup pointer txn).mp found).1
  · intro pointer notBehind
    ext txn
    rw [expiry.lookup, and_iff_left]
    rintro key member rfl
    exact notBehind ⟨key, member, rfl, le_rfl⟩
  · intro pointer
    rw [expiry.ready, not_behind_iff]
  · intro pointer isParked
    rcases ((expiry.parked pointer).mp isParked).1 with
      old | ⟨-, key, member, same, larger⟩
    · exact .inl old
    · exact .inr ⟨key, member, same, larger.le⟩
  · intro isStrict pointer txn id found mark behind
    obtain ⟨inStore, alive⟩ := (expiry.lookup pointer txn).mp found
    obtain ⟨key, member, same⟩ := spared isStrict pointer txn id inStore mark behind
    exact alive key member same

/-- A new transaction has no mark. -/
theorem Logged.addition (indexed : store.Indexed hasher)
    (addition : store.Addition txn after) (log : after.timelineIndex = store.timelineIndex)
    (free : store.lookup txn.pointer = none)
    (unmarked : strict → ∀ id, txn.timelineState ≠ .ready id) : after.Logged strict := by
  have cases (pointer other) (found : after.lookup pointer = some other) :=
    (addition.lookup_eq_some_iff free).mp found
  constructor
  · rw [log]
    exact logged.fresh
  · intro id pointer inLog
    rw [log] at inLog
    obtain ⟨other, found, mark⟩ := logged.marked id pointer inLog
    exact ⟨other, (addition.lookup_eq_some_iff free).mpr (.inr found), mark⟩
  · intro isStrict pointer other id found mark
    rw [log, addition.ready, addition.parked]
    rcases cases pointer other found with ⟨-, rfl⟩ | old
    · exact absurd mark (unmarked isStrict id)
    · exact logged.logged isStrict pointer other id old mark
  · intro isStrict pointer other found state isReady
    rw [addition.ready] at isReady
    rcases cases pointer other found with ⟨rfl, -⟩ | old
    · obtain ⟨_, stored⟩ := indexed.stored_of_ready isReady
      rw [free] at stored
      cases stored
    · exact logged.waiting isStrict pointer other old state isReady

end

/-!
## Promotions
-/

section

variable {address : AccountAddress} {promotion : Promotion Data} {number : Nat}

/-- A promoted transaction without a mark gets the next one. -/
theorem Logged.promote (sound : promotion.Sound address)
    (found : promotion.txns.get? number = some txn)
    (logged : (store.withPromotion address promotion).Logged strict) :
    (store.withPromotion address (promotion.promote number txn)).Logged strict := by
  have promotes := sound.promote found
  have own : (store.withPromotion address promotion).lookup (address, number) = some txn := by
    rw [lookup_withPromotion, if_pos rfl, found]
  have ready : ∀ pointer,
        (store.withPromotion address (promotion.promote number txn)).Ready pointer ↔
          (store.withPromotion address promotion).Ready pointer ∨ pointer = (address, number) := by
    intro pointer
    constructor
    · rintro ⟨key, member, rfl⟩
      rcases (promotes.queue key).mp member with
        old | ⟨_, other, rfl, there, rfl⟩
      · exact .inl ⟨key, old, rfl⟩
      · exact .inr (sound.keyed _ _ there).pointer_eq
    · rintro (⟨key, old, same⟩ | rfl)
      · exact ⟨key, (promotes.queue key).mpr (.inl old), same⟩
      · exact ⟨_, (promotes.queue _).mpr (.inr ⟨number, txn, rfl, found, rfl⟩),
          (sound.keyed _ _ found).pointer_eq⟩
  have parked : ∀ pointer,
        (store.withPromotion address (promotion.promote number txn)).Parked pointer ↔
          (store.withPromotion address promotion).Parked pointer ∧
            ¬ (pointer.1 = address ∧ pointer.2 = number) :=
    fun pointer => promotes.parked pointer.1 pointer.2
  obtain ⟨fresh, marked, inLog, waiting⟩ := logged
  by_cases state : txn.timelineState = .notReady
  · have lookups :
        ∀ pointer, (store.withPromotion address (promotion.promote number txn)).lookup pointer =
          if pointer = (address, number) then
            some { txn with
              timelineState := .ready promotion.timelineIndex.timelineId }
          else (store.withPromotion address promotion).lookup pointer := by
      intro pointer
      rw [lookup_withPromotion, lookup_withPromotion, Promotion.promote, if_pos state]
      simp only [TimelineIndex.insert, OrderedMap.get?_insert, Prod.ext_iff]
      grind
    have log : (store.withPromotion address (promotion.promote number txn)).timelineIndex =
          ((store.withPromotion address promotion).timelineIndex.insert txn).1 := by
      rw [withPromotion, Promotion.promote, if_pos state]
      rfl
    simp only [TimelineIndex.insert, (sound.keyed _ _ found).pointer_eq] at log
    constructor
    · simp only [log, OrderedMap.get?_insert]
      grind
    · simp only [log, lookups, OrderedMap.get?_insert]
      grind [withPromotion]
    · simp only [log, lookups, ready, parked, OrderedMap.get?_insert]
      grind [withPromotion]
    · simp only [lookups, ready]
      grind
  · have lookups :
        ∀ pointer, (store.withPromotion address (promotion.promote number txn)).lookup pointer =
          (store.withPromotion address promotion).lookup pointer := by
      intro pointer
      rw [lookup_withPromotion, lookup_withPromotion, Promotion.promote, if_neg state]
      simp only [OrderedMap.get?_insert]
      grind
    have log : (store.withPromotion address (promotion.promote number txn)).timelineIndex =
          (store.withPromotion address promotion).timelineIndex := by
      rw [withPromotion, Promotion.promote, if_neg state]
      rfl
    constructor
    · rw [log]
      exact fresh
    · simp only [log, lookups]
      exact marked
    · simp only [log, lookups, ready, parked]
      grind
    · simp only [lookups, ready]
      grind

/-- What is marked is not parked. -/
theorem Logged.parkBehind (sound : promotion.Sound address)
    (logged : (store.withPromotion address promotion).Logged strict) (minSeq : Nat) :
    (store.withPromotion address (promotion.parkBehind minSeq)).Logged strict := by
  refine ⟨logged.fresh, logged.marked, ?_, logged.waiting⟩
  intro isStrict pointer txn id found mark
  obtain ⟨inLog, isReady, notParked⟩ := logged.logged isStrict pointer txn id found mark
  refine ⟨inLog, isReady, fun isParked => ?_⟩
  rcases ((sound.parkBehind minSeq).2 _ _).mp isParked with
    old | ⟨same, -, other, there, notMarked⟩
  · exact notParked old
  · rw [lookup_withPromotion, if_pos same.symm] at found
    cases there.symm.trans found
    exact notMarked id mark

theorem Logged.processReady (logged : store.Logged strict)
    (indexed : store.Indexed hasher) (address : AccountAddress)
    (crsnOrSeqno : AccountSequenceInfo) :
    (store.processReadyTransactions address crsnOrSeqno).Logged strict := by
  cases found : store.transactions.get? address with
  | none =>
    rw [processReadyTransactions, found]
    exact logged
  | some txns =>
    have same (pointer : TxnPointer) :
        (store.withPromotion address (store.promotion txns)).lookup pointer =
          store.lookup pointer := by
      rw [lookup_withPromotion]
      split
      · rename_i own
        rw [lookup_eq, ← own, found]
        rfl
      · rfl
    have start : (store.withPromotion address (store.promotion txns)).Logged strict := by
      refine ⟨logged.fresh, ?_, ?_, ?_⟩ <;> simp only [same]
      exacts [logged.marked, logged.logged, logged.waiting]
    obtain ⟨sound, promoted⟩ := Promotion.promoteReady_induction
      (motive := fun promotion =>
        promotion.Sound address ∧ (store.withPromotion address promotion).Logged strict)
      ⟨indexed.sound found, start⟩
      (fun _ _ _ there holds =>
        ⟨(holds.1.promote there).sound holds.1, holds.2.promote holds.1 there⟩)
      crsnOrSeqno
    rw [processReadyTransactions_of_get? found]
    exact promoted.parkBehind sound _

end

/-!
## Calls
-/

section

variable (logged : store.Logged strict)
  (indexed : store.Indexed hasher)
include logged indexed

theorem Logged.insert [DecidableEq Data] (choice : Nat)
    (atPointer : txn.At txn.pointer) (unmarked : strict → ∀ id, txn.timelineState ≠ .ready id) :
    (insert hasher choice store txn).2.Logged strict := by
  refine indexed.insert_induction (motive := (Logged · strict)) choice atPointer
    logged (fun _ _ _ logged loses => logged.loses loses) ?_
  intro before added logged indexed free addition log addedIndexed
  exact (logged.addition indexed addition log free unmarked).processReady addedIndexed _ _

theorem Logged.commitTransaction (account : AccountAddress)
    (accountSequenceNumber : AccountSequenceInfo) :
    (commitTransaction hasher store account accountSequenceNumber).Logged strict := by
  have cleaned := indexed.cleanCommittedTransactions account accountSequenceNumber.minSeq
  exact (logged.loses cleaned).processReady cleaned.indexed _ _

end

/--
Every transaction that can be broadcast is in the log, at its position, exactly if it is in
the queue, and no parked transaction is marked as ready.
-/
def Broadcast (store : TransactionStore Data Hash) : Prop :=
  ∀ pointer txn, store.lookup pointer = some txn → (txn.timelineState ≠ .nonQualified →
    ((∃ id, txn.timelineState = .ready id ∧ store.timelineIndex.timeline.get? id = some pointer) ↔
      store.Ready pointer)) ∧
    (store.Parked pointer → ∀ id, txn.timelineState ≠ .ready id)

theorem Logged.broadcast (logged : store.Logged True) : store.Broadcast := by
  intro pointer txn found
  have marked := logged.logged trivial pointer txn
  refine ⟨fun qualified => ⟨?_, fun isReady => ?_⟩, fun isParked id mark => ?_⟩
  · rintro ⟨id, mark, -⟩
    exact (marked id found mark).2.1
  · cases state : txn.timelineState with
    | ready id => exact ⟨id, rfl, (marked id found state).1⟩
    | notReady => exact absurd isReady (logged.waiting trivial pointer txn found state)
    | nonQualified => exact absurd state qualified
  · exact (marked id found mark).2.2 isParked

end TransactionStore

namespace Mempool

open TransactionStore

/--
A submission is not marked as ready, and garbage collection finds no marked transaction
behind an expired one that has not expired as well.
-/
def Undisturbed (mempool : Mempool Data Hash) : MempoolCall Data → Prop
  | .addTxn _ _ _ submission => ∀ id, submission.timelineState ≠ .ready id
  | .removeTransaction _ _ _ _ _ => True
  | .gc _ epochTime =>
    mempool.transactions.NoneBehind (mempool.transactions.systemTtlIndex.gc epochTime).1
  | .gcByExpirationTime blockTime =>
    mempool.transactions.NoneBehind (mempool.transactions.expirationTimeIndex.gc blockTime).1

variable [DecidableEq Data] {strict : Prop}

theorem logged_call {mempool : Mempool Data Hash} (logged : mempool.transactions.Logged strict)
    (indexed : mempool.transactions.Indexed hasher)
    {call : MempoolCall Data} (undisturbed : strict → mempool.Undisturbed call) :
    (mempool.call hasher call).transactions.Logged strict := by
  cases call with
  | addTxn now epochTime choice submission =>
    rw [call, addTxn]
    split
    · exact logged
    · exact logged.insert indexed choice ⟨rfl, rfl, rfl⟩ undisturbed
  | removeTransaction now later sender sequenceNumber isRejected =>
    rw [call, removeTransaction]
    dsimp only
    split
    · split
      · exact logged.loses (indexed.rejectTransaction sender)
      · exact logged
    · exact logged.commitTransaction indexed sender _
  | gc now epochTime =>
    obtain ⟨-, keys, members, expiry, unlogs⟩ := indexed.gcBySystemTtl epochTime
    refine logged.expiry expiry unlogs ?_
    simpa only [NoneBehind, Behind, members] using! undisturbed
  | gcByExpirationTime blockTime =>
    obtain ⟨-, keys, members, expiry, unlogs⟩ := indexed.gcByExpirationTime blockTime
    refine logged.expiry expiry unlogs ?_
    simpa only [NoneBehind, Behind, members] using! undisturbed

variable (hasher : CommittedHash Data Hash)
  (config : MempoolConfig) (calls : List (MempoolCall Data))

/-- The log along a run; it is strict if no call disturbs it. -/
theorem logged_run
    (undisturbed : strict → ∀ earlier call later, calls = earlier ++ call :: later →
      ((new config).run hasher earlier).Undisturbed call) :
    ((new config).run hasher calls).transactions.Logged strict := by
  induction calls using List.reverseRecOn with
  | nil => exact ⟨nofun, nofun, nofun, nofun⟩
  | append_singleton earlier call ih =>
    rw [run, List.foldl_append]
    refine logged_call (ih fun isStrict first middle last same => ?_)
      (indexed_run hasher config earlier) fun isStrict => ?_
    · refine undisturbed isStrict first middle (last ++ [call]) ?_
      rw [same, List.append_assoc]
      rfl
    · exact undisturbed isStrict earlier call [] rfl

/--
After every run in which no call disturbs the log, what is in the queue is in the log.
-/
theorem broadcast_run
    (undisturbed : ∀ earlier call later, calls = earlier ++ call :: later →
      ((new config).run hasher earlier).Undisturbed call) :
    ((new config).run hasher calls).transactions.Broadcast :=
  (logged_run hasher config calls fun _ => undisturbed).broadcast

/-- A submission of the account 7 at a time. -/
def submitAt (epochTime : Nat) (crsnOrSeqno : AccountSequenceInfo)
    (sequenceNumber : Nat) : MempoolCall Unit :=
  .addTxn 0 epochTime 0
    { txn := plainTxn 7 sequenceNumber
      gasAmount := 1
      rankingScore := 1
      crsnOrSeqno
      timelineState := .notReady
      governanceRole := .nonGovernanceRole }

/-- The number 1 was submitted first and expires; the number 0 before it stays in the log. -/
theorem broadcast_run_expired :
    let calls := [submitAt 1 (.sequential 0) 0, submitAt 0 (.sequential 0) 1,
      .gc 0 (fromSecs 100 + 1)]
    let store := ((new ⟨10, 10, 100⟩).run plainHash calls).transactions
    store.pointers = [(7, 0)] ∧ store.Broadcast := by
  refine ⟨by decide +kernel, broadcast_run plainHash ⟨10, 10, 100⟩ _ ?_⟩
  rintro (_ | ⟨_, _ | ⟨_, _ | ⟨_, rest⟩⟩⟩) call later same
  · cases same
    nofun
  · cases same
    nofun
  · cases same
    intro pointer txn id found _
    have stored := mem_pointers.mpr ⟨txn, found⟩
    clear found
    revert pointer
    unfold Behind
    decide +kernel
  · cases rest <;> cases same

/--
Number 0 expires and number 1 is parked, with its mark.  When number 0 is submitted again,
number 1 gets into the queue and not into the log.
-/
theorem broadcast_lost :
    let parked := ((new ⟨10, 10, 100⟩).run plainHash
      [submitAt 0 (.sequential 0) 0, submitAt 1 (.sequential 0) 1,
        .gc 0 (fromSecs 100 + 1)]).transactions
    let again := ((new ⟨10, 10, 100⟩).run plainHash
      [submitAt 0 (.sequential 0) 0, submitAt 1 (.sequential 0) 1,
        .gc 0 (fromSecs 100 + 1), submitAt 2 (.sequential 0) 0]).transactions
    parked.parkingLotIndex.contains 7 1 = true ∧
      (parked.lookup (7, 1)).map MempoolTransaction.timelineState = some (.ready 2) ∧
      again.priorityIndex.keys.map OrderedQueueKey.pointer = [(7, 0), (7, 1)] ∧
      (again.lookup (7, 1)).map MempoolTransaction.timelineState = some (.ready 2) ∧
      again.timelineIndex.timeline.get? 2 = none := by
  decide +kernel

end Mempool

end Timeline

end Diem.CoreMempool
