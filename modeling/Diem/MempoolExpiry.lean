import Diem.MempoolInsertion

namespace Diem.CoreMempool

open List

/-!
# Expiration

Expired transactions leave the store, and what comes behind an expired transaction of the
same account is parked.
-/

section Expiration

variable {Data Hash : Type} [LinearOrder Hash]

/-- The pointer to a transaction of a queue by expiration time. -/
def TTLOrderingKey.pointer (key : TTLOrderingKey) : TxnPointer :=
  (key.address, key.sequenceNumber)

namespace TransactionStore

variable {store : TransactionStore Data Hash}
  {hasher : CommittedHash Data Hash}
  {pendingSystem pendingExpiration : TxnPointer → Prop} {keys : List TTLOrderingKey}
  {key : TTLOrderingKey} {next : Option TTLOrderingKey}
  {after : TransactionStore Data Hash}

variable (store) in
/-- Some ready transactions are parked. -/
structure Reparked (txns : List (MempoolTransaction Data))
    (after : TransactionStore Data Hash) : Prop where
  transactions : after.transactions = store.transactions
  system : after.systemTtlIndex = store.systemTtlIndex
  expiration : after.expirationTimeIndex = store.expirationTimeIndex
  hashes : after.hashIndex = store.hashIndex
  capacity : after.capacity = store.capacity
  capacityPerUser : after.capacityPerUser = store.capacityPerUser
  queue : ∀ key, key ∈ after.priorityIndex ↔
    key ∈ store.priorityIndex ∧ ∀ txn ∈ txns, key.rank ≠ (PriorityIndex.makeKey txn).rank
  parking : after.parkingLotIndex.WellFormed
  parked :
    ∀ pointer, after.Parked pointer ↔ store.Parked pointer ∨ ∃ txn ∈ txns, txn.pointer = pointer

theorem foldl_unready (store : TransactionStore Data Hash)
    (valid : store.parkingLotIndex.WellFormed) (txns : List (MempoolTransaction Data))
    (keyed : ∀ txn ∈ txns, txn.At txn.pointer) :
    store.Reparked txns (txns.foldl unready store) := by
  induction txns generalizing store with
  | nil => constructor <;> simp [valid]
  | cons txn txns ih =>
    obtain ⟨inserted, insertedIff⟩ := valid.insert (keyed txn mem_cons_self)
    have tail := ih (store.unready txn) inserted
      fun other member => keyed other (mem_cons_of_mem _ member)
    rw [foldl_cons]
    refine { tail with queue := ?_, parked := ?_ }
    · intro key
      rw [tail.queue, forall_mem_cons, ← and_assoc]
      exact and_congr_left fun _ => RankedSet.mem_remove
    · intro pointer
      rw [tail.parked, exists_mem_cons_iff, ← or_assoc]
      refine or_congr_left ?_
      rw [or_comm, eq_comm]
      exact insertedIff pointer.1 pointer.2

variable (store keys after) in
/-- What the expiration of transactions does to the pointers. -/
structure Expiry : Prop where
  lookup : ∀ pointer txn, after.lookup pointer = some txn ↔
    store.lookup pointer = some txn ∧ ∀ key ∈ keys, key.pointer ≠ pointer
  ready : ∀ pointer, after.Ready pointer ↔
    store.Ready pointer ∧ ∀ key ∈ keys, key.address = pointer.1 → pointer.2 < key.sequenceNumber
  parked : ∀ pointer, after.Parked pointer ↔ (store.Parked pointer ∨
      store.Stored pointer ∧
        ∃ key ∈ keys, key.address = pointer.1 ∧ key.sequenceNumber < pointer.2) ∧
    ∀ key ∈ keys, key.pointer ≠ pointer
  capacity : after.capacity = store.capacity
  capacityPerUser : after.capacityPerUser = store.capacityPerUser

/-- A number is parked with an expired one if it lies before the next expired one. -/
theorem inParkRange_iff {number : Nat} :
    inParkRange key next number = true ↔ key.sequenceNumber < number ∧
      ∀ nextKey ∈ next, nextKey.address = key.address → number < nextKey.sequenceNumber := by
  cases next with
  | none => simp [inParkRange]
  | some nextKey =>
    simp only [inParkRange, Bool.and_eq_true, decide_eq_true_iff, Option.mem_some, forall_eq']

variable (key next) in
/-- The expired transaction and what is parked with it. -/
def Reaches (pointer : TxnPointer) : Prop :=
  (key.address = pointer.1 ∧ inParkRange key next pointer.2 = true) ∨ pointer = key.pointer

/-- At or behind an expired transaction of the same account. -/
def Behind (keys : List TTLOrderingKey) (pointer : TxnPointer) : Prop :=
  ∃ key ∈ keys, key.address = pointer.1 ∧ key.sequenceNumber ≤ pointer.2

variable (store key next after) in
/-- What one expired transaction does to the pointers. -/
structure Expired : Prop where
  lookup : ∀ pointer txn,
    after.lookup pointer = some txn ↔ store.lookup pointer = some txn ∧ key.pointer ≠ pointer
  ready : ∀ pointer, after.Ready pointer ↔
    (store.Ready pointer ∧ ¬ (key.address = pointer.1 ∧ inParkRange key next pointer.2 = true)) ∧
      key.pointer ≠ pointer
  parked : ∀ pointer, after.Parked pointer ↔ (store.Parked pointer ∨
      key.address = pointer.1 ∧ inParkRange key next pointer.2 = true ∧ store.Stored pointer) ∧
    key.pointer ≠ pointer
  capacity : after.capacity = store.capacity
  capacityPerUser : after.capacityPerUser = store.capacityPerUser

theorem Expired.stored_iff (expired : store.Expired key next after) (pointer : TxnPointer) :
    after.Stored pointer ↔ store.Stored pointer ∧ key.pointer ≠ pointer := by
  simp only [Stored, expired.lookup, exists_and_right]

section

variable (indexed : store.Indexed hasher pendingSystem pendingExpiration)
include indexed

/-- What is behind an expired transaction is parked, and then it is removed. -/
theorem Indexed.expired (behind : List (MempoolTransaction Data))
    (values : ∀ txn, txn ∈ behind ↔ ∃ number, store.lookup (key.address, number) = some txn ∧
      inParkRange key next number = true)
    (loses : (behind.foldl unready store).Indexed hasher pendingSystem pendingExpiration →
      (behind.foldl unready store).Loses hasher pendingSystem
        pendingExpiration (· = key.pointer) after) :
    after.Indexed hasher pendingSystem pendingExpiration ∧
      store.Expired key next after ∧ store.Unlogs (Reaches key next) after := by
  have reparked : store.Reparked behind (behind.foldl unready store) := by
    refine foldl_unready store indexed.parking behind fun txn member => ?_
    obtain ⟨number, there, -⟩ := (values txn).mp member
    have atNumber := indexed.keyed _ _ there
    rw [atNumber.pointer_eq]
    exact atNumber
  have log : (behind.foldl unready store).timelineIndex =
        behind.foldl TimelineIndex.remove store.timelineIndex :=
    (foldl_hom timelineIndex fun _ _ => rfl).symm
  generalize behind.foldl unready store = middle at *
  have lookups : ∀ pointer, middle.lookup pointer = store.lookup pointer := by
    intro pointer
    rw [lookup_eq, lookup_eq, reparked.transactions]
  have picks : store.Picks
        (fun pointer => key.address = pointer.1 ∧ inParkRange key next pointer.2 = true)
        behind :=
    indexed.picks (fun _ => and_congr_left' eq_comm) values
  have parked : ∀ pointer, middle.Parked pointer ↔ store.Parked pointer ∨
    key.address = pointer.1 ∧ inParkRange key next pointer.2 = true ∧ store.Stored pointer := by
    intro pointer
    rw [reparked.parked]
    refine or_congr_right ⟨?_, ?_⟩
    · rintro ⟨txn, member, rfl⟩
      obtain ⟨there, same, inRange⟩ := picks.stored txn member
      exact ⟨same, inRange, txn, there⟩
    · rintro ⟨same, inRange, txn, there⟩
      exact ⟨txn, picks.all _ txn there ⟨same, inRange⟩, (indexed.keyed _ _ there).pointer_eq⟩
  have resorted : store.Resorted middle := by
    refine ⟨?_, reparked.system, reparked.expiration, reparked.hashes,
      reparked.capacity, reparked.capacityPerUser⟩
    intro pointer
    rw [lookups]
  have middleIndexed : middle.Indexed hasher pendingSystem pendingExpiration := by
    refine indexed.resorted resorted ?_ reparked.parking ?_
    · intro queueKey member
      exact indexed.queued queueKey ((reparked.queue queueKey).mp member).1
    · intro pointer isParked
      rcases (parked pointer).mp isParked with old | ⟨-, -, stored⟩
      · exact indexed.parked pointer old
      · exact stored
  obtain ⟨left, removal, last⟩ := loses middleIndexed
  refine ⟨left, ⟨?_, ?_, ?_, ?_, ?_⟩, (Unlogs.of_removed log picks).trans last ?_
    fun _ => False.elim⟩
  · intro pointer txn
    rw [removal.lookup_eq_some_iff, lookups, ne_comm]
  · intro pointer
    rw [removal.ready, picks.ready indexed reparked.queue, ne_comm]
  · intro pointer
    rw [removal.parked, parked, ne_comm]
  · exact removal.capacity.trans reparked.capacity
  · exact removal.capacityPerUser.trans reparked.capacityPerUser
  · simp [lookups]

theorem Indexed.removeExpired (key : TTLOrderingKey) (next : Option TTLOrderingKey) :
    (removeExpired hasher store key next).Indexed hasher pendingSystem pendingExpiration ∧
      store.Expired key next (removeExpired hasher store key next) ∧
      store.Unlogs (Reaches key next) (removeExpired hasher store key next) := by
  rw [TransactionStore.removeExpired]
  cases found : store.transactions.get? key.address with
  | none =>
    have absent (number : Nat) : store.lookup (key.address, number) = none := by
      rw [lookup_eq, found]
      rfl
    refine indexed.expired [] ?_ fun indexed => ?_
    · simp [absent]
    · refine indexed.removal_refl ?_
      rintro pointer rfl
      exact absent _
  | some txns =>
    refine indexed.expired _ ?_ fun indexed => indexed.removeTxn key.pointer
    intro txn
    rw [OrderedMap.mem_values_iff]
    refine exists_congr fun number => ?_
    rw [OrderedMap.get?_filter_eq_some_iff, lookup_of_get? found]

end

/-- What a key reaches, and what is behind the keys after it. -/
theorem reaches_or_behind {pointer : TxnPointer} :
    Reaches key keys.head? pointer ∨ Behind keys pointer ↔ Behind (key :: keys) pointer := by
  obtain ⟨account, number⟩ := pointer
  rw [Behind, Behind, exists_mem_cons_iff]
  constructor
  · rintro ((⟨same, inRange⟩ | isKey) | behind)
    · exact .inl ⟨same, (inParkRange_iff.mp inRange).1.le⟩
    · cases isKey
      exact .inl ⟨rfl, le_rfl⟩
    · exact .inr behind
  · rintro (⟨same, le⟩ | behind)
    · by_contra neither
      simp only [Reaches, not_or, not_exists, not_and, not_le] at neither
      obtain ⟨⟨outside, different⟩, before⟩ := neither
      refine outside same (inParkRange_iff.mpr ⟨?_, fun next isHead own => ?_⟩)
      · exact lt_of_le_of_ne le fun equal => different (Prod.ext same.symm equal.symm)
      · exact before next (mem_of_mem_head? isHead) (own.trans same)
    · exact .inr behind

theorem not_behind_iff {pointer : TxnPointer} :
    ¬ Behind keys pointer ↔
      ∀ key ∈ keys, key.address = pointer.1 → pointer.2 < key.sequenceNumber := by
  simp [Behind]

/-- Removing one key after the other. -/
theorem Expired.expiry {middle : TransactionStore Data Hash}
    (first : store.Expired key keys.head? middle) (rest : middle.Expiry keys after) :
    store.Expiry (key :: keys) after := by
  refine ⟨?_, ?_, ?_, rest.capacity.trans first.capacity,
    rest.capacityPerUser.trans first.capacityPerUser⟩
  · intro pointer txn
    rw [rest.lookup, first.lookup, forall_mem_cons, and_assoc]
  · intro pointer
    rw [rest.ready, first.ready, ← not_behind_iff, ← not_behind_iff,
      ← reaches_or_behind, not_or, ← and_assoc]
    refine and_congr_left fun _ => ?_
    rw [Reaches, not_or, and_assoc, ne_comm]
  · rintro ⟨account, number⟩
    rw [rest.parked, first.parked, first.stored_iff, forall_mem_cons, exists_mem_cons_iff]
    constructor
    · rintro ⟨⟨parked | ⟨same, inRange, stored⟩, different⟩ | ⟨⟨stored, different⟩, behind⟩, others⟩
      · exact ⟨.inl parked, different, others⟩
      · exact ⟨.inr ⟨stored, .inl ⟨same, (inParkRange_iff.mp inRange).1⟩⟩, different, others⟩
      · exact ⟨.inr ⟨stored, .inr behind⟩, different, others⟩
    · rintro ⟨parked | ⟨stored, ⟨same, larger⟩ | behind⟩, different, others⟩
      · exact ⟨.inl ⟨.inl parked, different⟩, others⟩
      · refine ⟨?_, others⟩
        rcases reaches_or_behind.mpr ⟨key, mem_cons_self, same, larger.le⟩
          with (⟨-, inRange⟩ | isKey) | ⟨next, member, own, le⟩
        · exact .inl ⟨.inr ⟨same, inRange, stored⟩, different⟩
        · exact absurd isKey.symm different
        · refine .inr ⟨⟨stored, different⟩, next, member, own, ?_⟩
          exact lt_of_le_of_ne le fun equal => others next member (Prod.ext own equal)
      · exact ⟨.inr ⟨⟨stored, different⟩, behind⟩, others⟩

/-- Remove expired transactions one after the other. -/
theorem Indexed.removeAllExpired (keys : List TTLOrderingKey)
    (indexed : store.Indexed hasher pendingSystem pendingExpiration) :
    (removeAllExpired hasher store keys).Indexed hasher pendingSystem pendingExpiration ∧
      store.Expiry keys (removeAllExpired hasher store keys) ∧
      store.Unlogs (Behind keys) (removeAllExpired hasher store keys) := by
  induction keys generalizing store with
  | nil =>
    refine ⟨indexed, ?_, ?_⟩ <;> constructor <;> simp [TransactionStore.removeAllExpired, Behind]
  | cons key keys ih =>
    obtain ⟨middle, first, firstLog⟩ := indexed.removeExpired key keys.head?
    obtain ⟨result, rest, restLog⟩ := ih middle
    have log := firstLog.trans restLog first.lookup fun _ same => .inr same.symm
    simp only [reaches_or_behind] at log
    exact ⟨result, first.expiry rest, log⟩

/-!
## Garbage collection
-/

theorem mem_sortByPointer : key ∈ sortByPointer keys ↔ key ∈ keys := mem_mergeSort

variable {index : TTLIndex Data}

/-- What was taken out of an index is pending. -/
theorem RefersTo.gc (refers : store.RefersTo index nothing) (now : Nat) :
    store.RefersTo (index.gc now).2
      (fun pointer => ∃ key ∈ (index.gc now).1, key.pointer = pointer) := by
  have taken :
      ∀ key, key ∈ (index.gc now).1 ↔ key ∈ index.data ∧ TTLIndex.expired now key = true := by
    intro key
    rw [TTLIndex.gc, RankedSet.mem_keys, RankedSet.mem_filter]
  intro key
  rw [TTLIndex.gc, RankedSet.mem_filter, refers key]
  constructor
  · rintro ⟨⟨txn, found, own, -⟩, alive⟩
    refine ⟨txn, found, own, ?_⟩
    rintro ⟨other, member, same⟩
    obtain ⟨inIndex, dead⟩ := (taken other).mp member
    obtain ⟨otherTxn, otherFound, otherOwn, -⟩ := (refers other).mp inIndex
    change store.lookup other.pointer = some otherTxn at otherFound
    rw [same, found] at otherFound
    cases otherFound
    rw [← otherOwn, own] at dead
    rw [dead] at alive
    cases alive
  · rintro ⟨txn, found, own, notTaken⟩
    have member : key ∈ index.data := (refers key).mpr ⟨txn, found, own, nofun⟩
    refine ⟨⟨txn, found, own, nofun⟩, ?_⟩
    rw [Bool.not_eq_true', Bool.eq_false_iff]
    intro dead
    exact notTaken ⟨key, (taken key).mpr ⟨member, dead⟩, rfl⟩

/-- When the pending transactions are gone nothing is pending. -/
theorem RefersTo.done {pending : TxnPointer → Prop} (refers : store.RefersTo index pending)
    (gone : ∀ pointer, pending pointer → ¬ store.Stored pointer) :
    store.RefersTo index nothing := by
  intro key
  rw [refers key]
  refine exists_congr fun txn => and_congr_right fun found => ?_
  refine and_congr_right fun _ => ⟨fun _ => nofun, fun _ isPending => ?_⟩
  exact gone _ isPending ⟨txn, found⟩

theorem Expiry.gone (expiry : store.Expiry keys after) {pointer : TxnPointer}
    (taken : ∃ key ∈ keys, key.pointer = pointer) : ¬ after.Stored pointer := by
  obtain ⟨key, member, same⟩ := taken
  rintro ⟨txn, found⟩
  exact ((expiry.lookup pointer txn).mp found).2 key member same

/-- Collecting garbage by the clock of the node. -/
theorem Indexed.gcBySystemTtl (indexed : store.Indexed hasher) (now : Nat) :
    (gcBySystemTtl hasher now store).Indexed hasher ∧
      ∃ keys, (∀ key, key ∈ keys ↔ key ∈ (store.systemTtlIndex.gc now).1) ∧
        store.Expiry keys (gcBySystemTtl hasher now store) ∧
        store.Unlogs (Behind keys) (gcBySystemTtl hasher now store) := by
  have taken : Indexed hasher
        { store with systemTtlIndex := (store.systemTtlIndex.gc now).2 }
        (fun pointer => ∃ key ∈ (store.systemTtlIndex.gc now).1, key.pointer = pointer)
        nothing :=
    { indexed with system := indexed.system.gc now }
  obtain ⟨left, expiry, unlogs⟩ :=
    taken.removeAllExpired (sortByPointer (store.systemTtlIndex.gc now).1)
  refine ⟨{ left with system := left.system.done ?_ }, _,
    fun _ => mem_sortByPointer, { expiry with }, { unlogs with }⟩
  rintro pointer ⟨key, member, same⟩
  exact expiry.gone ⟨key, mem_sortByPointer.mpr member, same⟩

/-- Collecting garbage by the expiration the clients chose. -/
theorem Indexed.gcByExpirationTime (indexed : store.Indexed hasher) (blockTime : Nat) :
    (gcByExpirationTime hasher blockTime store).Indexed hasher ∧
      ∃ keys, (∀ key, key ∈ keys ↔ key ∈ (store.expirationTimeIndex.gc blockTime).1) ∧
        store.Expiry keys (gcByExpirationTime hasher blockTime store) ∧
        store.Unlogs (Behind keys) (gcByExpirationTime hasher blockTime store) := by
  have taken : Indexed hasher
        { store with
          expirationTimeIndex := (store.expirationTimeIndex.gc blockTime).2 }
        nothing fun pointer =>
          ∃ key ∈ (store.expirationTimeIndex.gc blockTime).1, key.pointer = pointer :=
    { indexed with expiration := indexed.expiration.gc blockTime }
  obtain ⟨left, expiry, unlogs⟩ :=
    taken.removeAllExpired (sortByPointer (store.expirationTimeIndex.gc blockTime).1)
  refine ⟨{ left with expiration := left.expiration.done ?_ }, _,
    fun _ => mem_sortByPointer, { expiry with }, { unlogs with }⟩
  rintro pointer ⟨key, member, same⟩
  exact expiry.gone ⟨key, mem_sortByPointer.mpr member, same⟩

end TransactionStore

end Expiration

end Diem.CoreMempool
