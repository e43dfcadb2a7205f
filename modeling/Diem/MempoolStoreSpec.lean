import Diem.MempoolIndexSpec
import Diem.TransactionStore

namespace Diem.CoreMempool

open List

/-!
# The indexes of the store

All indexes refer to the stored transactions, whatever calls are made.  Removing
transactions and making them ready or parked change the indexes as sets of pointers
change.
-/

section StoreSpec

variable {Data Hash : Type} [LinearOrder Hash]
  (txn : MempoolTransaction Data)

/-- A transaction without its place in the log. -/
def MempoolTransaction.core : MempoolTransaction Data :=
  { txn with timelineState := .notReady }

variable {pointer : TxnPointer}

variable {first second : MempoolTransaction Data}

theorem MempoolTransaction.At.congr (same : first.core = second.core)
    (atPointer : first.At pointer) : second.At pointer := by
  cases first
  cases second
  cases same
  exact ⟨atPointer.sender, atPointer.number, atPointer.info⟩

theorem MempoolTransaction.At.pointer_eq {txn : MempoolTransaction Data}
    (atPointer : txn.At pointer) : txn.pointer = pointer :=
  Prod.ext atPointer.sender atPointer.info

theorem MempoolTransaction.At.unique {other : TxnPointer} (atPointer : first.At pointer)
    (atOther : second.At other) (same : first.txn = second.txn) : pointer = other := by
  refine Prod.ext ?_ ?_
  · rw [← atPointer.sender, same, atOther.sender]
  · rw [← atPointer.number, same, atOther.number]

theorem PriorityIndex.makeKey_congr (same : first.core = second.core) :
    makeKey first = makeKey second := by
  cases first
  cases second
  cases same
  rfl

theorem PriorityIndex.pointer_makeKey : (makeKey txn).pointer = txn.pointer := rfl

/-- Only the positions of the removed transactions leave the log. -/
theorem TimelineIndex.foldl_remove (txns : List (MempoolTransaction Data)) (index : TimelineIndex) :
    (txns.foldl remove index).timelineId = index.timelineId ∧
      ∀ id pointer, (txns.foldl remove index).timeline.get? id = some pointer ↔
        index.timeline.get? id = some pointer ∧ ∀ txn ∈ txns, txn.timelineState ≠ .ready id := by
  induction txns generalizing index with
  | nil => simp
  | cons txn txns ih =>
    obtain ⟨next, log⟩ := ih (index.remove txn)
    rw [foldl_cons]
    simp only [next, log, forall_mem_cons, ← and_assoc]
    cases state : txn.timelineState with
    | ready timelineId => simp [remove, state, OrderedMap.get?_erase, and_comm]
    | notReady | nonQualified => simp [remove, state]

namespace TransactionStore

variable {hasher : CommittedHash Data Hash}
  {store : TransactionStore Data Hash}

section

variable (store)

/-- The transaction stored at a pointer. -/
def lookup (pointer : TxnPointer) : Option (MempoolTransaction Data) :=
  store.getMempoolTxn pointer.1 pointer.2

/-- The transaction is in the queue. -/
def Ready (pointer : TxnPointer) : Prop :=
  ∃ key ∈ store.priorityIndex, key.pointer = pointer

/-- The transaction is in the parking lot. -/
def Parked (pointer : TxnPointer) : Prop :=
  store.parkingLotIndex.contains pointer.1 pointer.2 = true

/-- The store has the transaction. -/
def Stored (pointer : TxnPointer) : Prop :=
  ∃ txn, store.lookup pointer = some txn

/-- An index by expiration time refers to the stored transactions, except for some. -/
def RefersTo (index : TTLIndex Data) (pending : TxnPointer → Prop) : Prop :=
  ∀ key, key ∈ index.data ↔
    ∃ txn, store.lookup (key.address, key.sequenceNumber) = some txn ∧ index.makeKey txn = key ∧
      ¬ pending (key.address, key.sequenceNumber)

end

/-- No pointers. -/
def nothing : TxnPointer → Prop :=
  fun _ => False

variable (hasher store) in
/-- All indexes refer to the stored transactions, but for entries that are about to go. -/
structure Indexed (pendingSystem pendingExpiration : TxnPointer → Prop := nothing) : Prop where
  keyed : ∀ pointer txn, store.lookup pointer = some txn → txn.At pointer
  systemTime : ∀ txn, store.systemTtlIndex.getExpirationTime txn = txn.expirationTime
  clientTime : ∀ txn,
    store.expirationTimeIndex.getExpirationTime txn = fromSecs txn.txn.expirationTimestampSecs
  system : store.RefersTo store.systemTtlIndex pendingSystem
  expiration : store.RefersTo store.expirationTimeIndex pendingExpiration
  hashes : ∀ hash pointer, store.hashIndex.get? hash = some pointer ↔
    ∃ txn, store.lookup pointer = some txn ∧ hasher.hash txn.txn = hash
  queued : ∀ key ∈ store.priorityIndex,
    ∃ txn, store.lookup key.pointer = some txn ∧ PriorityIndex.makeKey txn = key
  parking : store.parkingLotIndex.WellFormed
  parked : ∀ pointer, store.Parked pointer → store.Stored pointer

theorem Indexed.new (capacity capacityPerUser : Nat) :
    (.new capacity capacityPerUser :
      TransactionStore Data Hash).Indexed hasher where
  keyed := nofun
  systemTime := fun _ => rfl
  clientTime := fun _ => rfl
  system := by
    intro key
    exact iff_of_false (RankedSet.not_mem_empty key) nofun
  expiration := by
    intro key
    exact iff_of_false (RankedSet.not_mem_empty key) nofun
  hashes := by
    intro hash pointer
    exact iff_of_false nofun nofun
  queued := by
    intro key member
    exact (RankedSet.not_mem_empty key member).elim
  parking := .new
  parked := nofun

variable {pendingSystem pendingExpiration : TxnPointer → Prop}

theorem Indexed.stored_of_ready (indexed : store.Indexed hasher pendingSystem pendingExpiration)
    (ready : store.Ready pointer) : store.Stored pointer := by
  obtain ⟨key, member, rfl⟩ := ready
  obtain ⟨txn, found, -⟩ := indexed.queued key member
  exact ⟨txn, found⟩

/-!
## Removal
-/

variable {before : TransactionStore Data Hash} {gone : TxnPointer → Prop}
  {removed : List (MempoolTransaction Data)}
  {after : TransactionStore Data Hash}

variable (hasher before removed after) in
/-- The indexes of a store without some transactions. -/
structure IndexesWithout : Prop where
  transactions : after.transactions = before.transactions
  capacity : after.capacity = before.capacity
  capacityPerUser : after.capacityPerUser = before.capacityPerUser
  systemTime : after.systemTtlIndex.getExpirationTime = before.systemTtlIndex.getExpirationTime
  clientTime :
    after.expirationTimeIndex.getExpirationTime = before.expirationTimeIndex.getExpirationTime
  system : ∀ key, key ∈ after.systemTtlIndex.data ↔
    key ∈ before.systemTtlIndex.data ∧ ∀ txn ∈ removed, key ≠ before.systemTtlIndex.makeKey txn
  expiration : ∀ key, key ∈ after.expirationTimeIndex.data ↔ key ∈ before.expirationTimeIndex.data ∧
    ∀ txn ∈ removed, key ≠ before.expirationTimeIndex.makeKey txn
  hashes : ∀ hash pointer, after.hashIndex.get? hash = some pointer ↔
    before.hashIndex.get? hash = some pointer ∧ ∀ txn ∈ removed, hash ≠ hasher.hash txn.txn
  queue : ∀ key, key ∈ after.priorityIndex ↔
    key ∈ before.priorityIndex ∧ ∀ txn ∈ removed, key.rank ≠ (PriorityIndex.makeKey txn).rank
  parking : after.parkingLotIndex.WellFormed
  parked :
    ∀ pointer, after.Parked pointer ↔ before.Parked pointer ∧ ∀ txn ∈ removed, pointer ≠ txn.pointer

theorem foldl_indexRemove (before : TransactionStore Data Hash)
    (parking : before.parkingLotIndex.WellFormed) (removed : List (MempoolTransaction Data))
    (keyed : ∀ txn ∈ removed, txn.At txn.pointer) :
    IndexesWithout hasher before removed (removed.foldl (indexRemove hasher) before) := by
  induction removed generalizing before with
  | nil => constructor <;> simp [parking]
  | cons txn rest ih =>
    obtain ⟨parkingLeft, parkedLeft⟩ := parking.remove (keyed txn mem_cons_self)
    have tail := ih (indexRemove hasher before txn) parkingLeft
      fun other member => keyed other (mem_cons_of_mem _ member)
    rw [foldl_cons]
    constructor
    · exact tail.transactions
    · exact tail.capacity
    · exact tail.capacityPerUser
    · exact tail.systemTime
    · exact tail.clientTime
    · intro key
      rw [tail.system]
      change key ∈ (before.systemTtlIndex.remove txn).data ∧ _ ↔ _
      rw [TTLIndex.remove, RankedSet.mem_remove, TTLOrderingKey.rank_injective.ne_iff,
        forall_mem_cons, and_assoc]
      rfl
    · intro key
      rw [tail.expiration]
      change key ∈ (before.expirationTimeIndex.remove txn).data ∧ _ ↔ _
      rw [TTLIndex.remove, RankedSet.mem_remove, TTLOrderingKey.rank_injective.ne_iff,
        forall_mem_cons, and_assoc]
      rfl
    · intro hash pointer
      rw [tail.hashes]
      change (before.hashIndex.erase (hasher.hash txn.txn)).get? hash = some pointer ∧ _ ↔ _
      rw [OrderedMap.erase, OrderedMap.get?_filter_eq_some_iff, forall_mem_cons, and_assoc]
      simp
    · intro key
      rw [tail.queue]
      change key ∈ before.priorityIndex.remove _ ∧ _ ↔ _
      rw [RankedSet.mem_remove, forall_mem_cons, and_assoc]
    · exact tail.parking
    · intro pointer
      rw [tail.parked]
      change (before.parkingLotIndex.remove txn).contains _ _ = true ∧ _ ↔ _
      rw [parkedLeft, forall_mem_cons, and_assoc, and_left_comm]
      rfl

variable (before gone after) in
/-- What removing transactions does to the pointers. -/
structure Removal : Prop where
  lost : ∀ pointer, gone pointer → after.lookup pointer = none
  kept : ∀ pointer, ¬ gone pointer → after.lookup pointer = before.lookup pointer
  ready : ∀ pointer, after.Ready pointer ↔ before.Ready pointer ∧ ¬ gone pointer
  parked : ∀ pointer, after.Parked pointer ↔ before.Parked pointer ∧ ¬ gone pointer
  capacity : after.capacity = before.capacity
  capacityPerUser : after.capacityPerUser = before.capacityPerUser

variable (store gone removed) in
/-- The list holds the stored transactions that go. -/
structure Picks : Prop where
  stored : ∀ txn ∈ removed, store.lookup txn.pointer = some txn ∧ gone txn.pointer
  all : ∀ pointer txn, store.lookup pointer = some txn → gone pointer → txn ∈ removed

/-- The queue without the transactions that go. -/
theorem Picks.ready (picks : before.Picks gone removed)
    (indexed : before.Indexed hasher pendingSystem pendingExpiration)
    (queue : ∀ key, key ∈ after.priorityIndex ↔
      key ∈ before.priorityIndex ∧ ∀ txn ∈ removed, key.rank ≠ (PriorityIndex.makeKey txn).rank)
    (pointer : TxnPointer) :
    after.Ready pointer ↔ before.Ready pointer ∧ ¬ gone pointer := by
  constructor
  · rintro ⟨key, member, rfl⟩
    obtain ⟨inBefore, others⟩ := (queue key).mp member
    refine ⟨⟨key, inBefore, rfl⟩, fun isGone => ?_⟩
    obtain ⟨txn, found, same⟩ := indexed.queued key inBefore
    exact others txn (picks.all _ txn found isGone) (congrArg _ same.symm)
  · rintro ⟨⟨key, member, rfl⟩, notGone⟩
    refine ⟨key, (queue key).mpr ⟨member, ?_⟩, rfl⟩
    intro txn removedTxn same
    rw [OrderedQueueKey.pointer_eq_of_rank_eq same] at notGone
    exact notGone (picks.stored txn removedTxn).2

theorem Removal.lookup_eq_some_iff (removal : before.Removal gone after) {pointer : TxnPointer}
    {txn : MempoolTransaction Data} :
    after.lookup pointer = some txn ↔ before.lookup pointer = some txn ∧ ¬ gone pointer := by
  by_cases isGone : gone pointer
  · rw [removal.lost pointer isGone]
    exact iff_of_false nofun fun both => both.2 isGone
  · rw [removal.kept pointer isGone, and_iff_left isGone]

theorem Removal.lookup_eq_none (removal : before.Removal gone after)
    (free : before.lookup pointer = none) : after.lookup pointer = none := by
  rw [Option.eq_none_iff_forall_ne_some]
  intro txn found
  rw [removal.lookup_eq_some_iff, free] at found
  cases found.1

theorem RefersTo.removal {index index' : TTLIndex Data} {pending : TxnPointer → Prop}
    (refers : before.RefersTo index pending)
    (times : index'.getExpirationTime = index.getExpirationTime)
    (left : ∀ key, key ∈ index'.data ↔ key ∈ index.data ∧ ∀ txn ∈ removed, key ≠ index.makeKey txn)
    (removal : before.Removal gone after) (picks : before.Picks gone removed) :
    after.RefersTo index' pending := by
  have sameKey : ∀ txn, index'.makeKey txn = index.makeKey txn := by
    intro txn
    rw [TTLIndex.makeKey, TTLIndex.makeKey, times]
  intro key
  rw [left, refers key]
  constructor
  · rintro ⟨⟨txn, found, same, notPending⟩, others⟩
    refine ⟨txn, removal.lookup_eq_some_iff.mpr ⟨found, fun isGone => ?_⟩,
      (sameKey txn).trans same, notPending⟩
    exact others txn (picks.all _ txn found isGone) same.symm
  · rintro ⟨txn, found, same, notPending⟩
    rw [sameKey] at same
    obtain ⟨foundBefore, notGone⟩ := removal.lookup_eq_some_iff.mp found
    refine ⟨⟨txn, foundBefore, same, notPending⟩, ?_⟩
    rintro other member rfl
    exact notGone (picks.stored other member).2

variable (before gone after) in
/-- The log loses the positions of the transactions that go. -/
structure Unlogs : Prop where
  next : after.timelineIndex.timelineId = before.timelineIndex.timelineId
  log : ∀ id pointer, after.timelineIndex.timeline.get? id = some pointer ↔
    before.timelineIndex.timeline.get? id = some pointer ∧
      ∀ other txn, before.lookup other = some txn → gone other → txn.timelineState ≠ .ready id

theorem Unlogs.of_removed
    (log : after.timelineIndex = removed.foldl TimelineIndex.remove before.timelineIndex)
    (picks : before.Picks gone removed) : before.Unlogs gone after := by
  obtain ⟨next, left⟩ := TimelineIndex.foldl_remove removed before.timelineIndex
  rw [← log] at next left
  refine ⟨next, fun id pointer => (left id pointer).trans ?_⟩
  refine and_congr_right fun _ => ⟨?_, ?_⟩
  · intro others other txn found isGone
    exact others txn (picks.all other txn found isGone)
  · intro others txn member
    exact others _ txn (picks.stored txn member).1 (picks.stored txn member).2

variable {middle : TransactionStore Data Hash}

theorem Unlogs.trans {lost later : TxnPointer → Prop} (first : before.Unlogs gone middle)
    (second : middle.Unlogs later after)
    (lookups : ∀ pointer txn,
      middle.lookup pointer = some txn ↔ before.lookup pointer = some txn ∧ ¬ lost pointer)
    (subset : ∀ pointer, lost pointer → gone pointer) :
    before.Unlogs (fun pointer => gone pointer ∨ later pointer) after := by
  refine ⟨second.next.trans first.next, fun id pointer => ?_⟩
  rw [second.log, first.log, and_assoc]
  refine and_congr_right fun _ => ⟨?_, ?_⟩
  · rintro ⟨early, late⟩ other txn found isGone
    by_cases isEarly : gone other
    · exact early other txn found isEarly
    · have inMiddle := (lookups other txn).mpr ⟨found, mt (subset other) isEarly⟩
      exact late other txn inMiddle (isGone.resolve_left isEarly)
  · intro others
    refine ⟨fun other txn found isGone => ?_, fun other txn found isGone => ?_⟩
    · exact others other txn found (.inl isGone)
    · exact others other txn ((lookups other txn).mp found).1 (.inr isGone)

variable (hasher pendingSystem pendingExpiration before gone after) in
/-- Some transactions leave the store and all indexes. -/
structure Loses : Prop where
  indexed : after.Indexed hasher pendingSystem pendingExpiration
  removal : before.Removal gone after
  unlogs : before.Unlogs gone after

/-- Removing transactions keeps the indexes in step. -/
theorem Indexed.removal (indexed : before.Indexed hasher pendingSystem pendingExpiration)
    (picks : before.Picks gone removed)
    (sameIndexes : middle = { before with transactions := middle.transactions })
    (lost : ∀ pointer, gone pointer → middle.lookup pointer = none)
    (kept : ∀ pointer, ¬ gone pointer → middle.lookup pointer = before.lookup pointer) :
    before.Loses hasher pendingSystem pendingExpiration gone
      (removed.foldl (indexRemove hasher) middle) := by
  obtain ⟨transactions, rfl⟩ :
      ∃ transactions, middle = { before with transactions := transactions } :=
    ⟨_, sameIndexes⟩
  have unlogs : before.Unlogs gone
        (removed.foldl (indexRemove hasher)
          { before with transactions := transactions }) := by
    refine .of_removed ?_ picks
    exact (foldl_hom timelineIndex fun _ _ => rfl).symm
  have keyed : ∀ txn ∈ removed, txn.At txn.pointer :=
    fun txn member => indexed.keyed _ _ (picks.stored txn member).1
  have without : IndexesWithout hasher _ removed _ :=
    foldl_indexRemove { before with transactions := transactions } indexed.parking removed keyed
  generalize removed.foldl (indexRemove hasher) _ = after at without unlogs ⊢
  have lookups : ∀ pointer,
        after.lookup pointer = lookup { before with transactions := transactions } pointer := by
    intro pointer
    rw [lookup, lookup, getMempoolTxn, getMempoolTxn, without.transactions]
  -- a pointer is gone exactly if its transaction was removed
  have notRemoved : ∀ pointer, before.Stored pointer →
        ((∀ txn ∈ removed, pointer ≠ txn.pointer) ↔ ¬ gone pointer) := by
    rintro pointer ⟨txn, found⟩
    constructor
    · intro apart isGone
      have member := picks.all pointer txn found isGone
      exact apart txn member (indexed.keyed _ _ found).pointer_eq.symm
    · rintro notGone other member rfl
      exact notGone (picks.stored other member).2
  have removal : before.Removal gone after := by
    refine ⟨?_, ?_, picks.ready indexed without.queue, ?_, without.capacity,
      without.capacityPerUser⟩
    · intro pointer isGone
      rw [lookups, lost pointer isGone]
    · intro pointer notGone
      rw [lookups, kept pointer notGone]
    · intro pointer
      rw [without.parked]
      refine and_congr_right fun isParked => ?_
      exact notRemoved pointer (indexed.parked pointer isParked)
  have found := @removal.lookup_eq_some_iff
  refine ⟨⟨?_, ?_, ?_, ?_, ?_, ?_, ?_, without.parking, ?_⟩, removal, unlogs⟩
  · intro pointer txn there
    exact indexed.keyed pointer txn (found.mp there).1
  · intro txn
    rw [without.systemTime]
    exact indexed.systemTime txn
  · intro txn
    rw [without.clientTime]
    exact indexed.clientTime txn
  · exact indexed.system.removal without.systemTime without.system removal picks
  · exact indexed.expiration.removal without.clientTime without.expiration removal picks
  · intro hash pointer
    rw [without.hashes]
    rw [indexed.hashes]
    constructor
    · rintro ⟨⟨txn, there, same⟩, others⟩
      refine ⟨txn, found.mpr ⟨there, fun isGone => ?_⟩, same⟩
      exact others txn (picks.all _ txn there isGone) same.symm
    · rintro ⟨txn, there, same⟩
      obtain ⟨inBefore, notGone⟩ := found.mp there
      refine ⟨⟨txn, inBefore, same⟩, ?_⟩
      rintro other member otherSame
      have pointers := (indexed.keyed _ _ inBefore).unique (keyed other member)
        (hasher.injective (same.trans otherSame))
      rw [pointers] at notGone
      exact notGone (picks.stored other member).2
  · intro key member
    have ready := (removal.ready key.pointer).mp ⟨key, member, rfl⟩
    obtain ⟨txn, there, same⟩ := indexed.queued key ((without.queue key).mp member).1
    exact ⟨txn, found.mpr ⟨there, ready.2⟩, same⟩
  · intro pointer isParked
    obtain ⟨inBefore, notGone⟩ := (removal.parked pointer).mp isParked
    obtain ⟨txn, there⟩ := indexed.parked pointer inBefore
    exact ⟨txn, found.mpr ⟨there, notGone⟩⟩

end TransactionStore

end StoreSpec

end Diem.CoreMempool
