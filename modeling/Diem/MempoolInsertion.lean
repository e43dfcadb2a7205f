import Diem.MempoolPromotion

namespace Diem.CoreMempool

open OrderedMap

/-!
# Insertions

What a submitted transaction does to the store: one parked transaction may be evicted,
old transactions of the account are forgotten, the new one is stored and the ready
transactions of the account are found again.
-/

section Insertions

variable {Data Hash : Type} [LinearOrder Hash] {pointer : TxnPointer}

/-- What can be evicted is parked. -/
theorem ParkingLotIndex.WellFormed.contains_getPoppable {index : ParkingLotIndex}
    (valid : index.WellFormed) {choice : Nat} (chosen : index.getPoppable choice = some pointer) :
    index.contains pointer.1 pointer.2 = true := by
  rw [getPoppable] at chosen
  split at chosen
  · rename_i sender txns entry
    split at chosen
    · rename_i seqNum largest
      cases chosen
      exact valid.contains_iff.mpr
        ⟨txns, List.mem_of_getElem? entry, Finset.mem_of_max largest⟩
    · cases chosen
  · cases chosen

/-- The number or least nonce of the account when it submitted the transaction. -/
abbrev MempoolTransaction.minSeq (txn : MempoolTransaction Data) : Nat :=
  txn.sequenceInfo.accountSequenceNumberType.minSeq

namespace TransactionStore

variable {store : TransactionStore Data Hash}
  {hasher : CommittedHash Data Hash}

/-- What storing a transaction at a free place does to the pointers. -/
structure Addition (before : TransactionStore Data Hash) (txn : MempoolTransaction Data)
    (after : TransactionStore Data Hash) : Prop where
  own : after.lookup txn.pointer = some txn
  others : ∀ pointer, pointer ≠ txn.pointer → after.lookup pointer = before.lookup pointer
  ready : ∀ pointer, after.Ready pointer ↔ before.Ready pointer
  parked : ∀ pointer, after.Parked pointer ↔ before.Parked pointer
  capacity : after.capacity = before.capacity
  capacityPerUser : after.capacityPerUser = before.capacityPerUser

variable {before after : TransactionStore Data Hash}
  {txn : MempoolTransaction Data}

section

variable (addition : before.Addition txn after) (free : before.lookup txn.pointer = none)
include addition free

theorem Addition.lookup_eq_some_iff {other : MempoolTransaction Data} :
    after.lookup pointer = some other ↔
      (pointer = txn.pointer ∧ other = txn) ∨ before.lookup pointer = some other := by
  by_cases same : pointer = txn.pointer
  · rw [same, addition.own, free, Option.some.injEq]
    simp [eq_comm]
  · rw [addition.others pointer same]
    simp [same]

theorem Addition.stored_iff (pointer : TxnPointer) :
    after.Stored pointer ↔ pointer = txn.pointer ∨ before.Stored pointer := by
  rw [Stored, Stored]
  simp only [addition.lookup_eq_some_iff free]
  simp [exists_or]

end

theorem RefersTo.addition {index : TTLIndex Data} (refers : before.RefersTo index nothing)
    (addition : before.Addition txn after) (free : before.lookup txn.pointer = none) :
    after.RefersTo (index.insert txn) nothing := by
  intro key
  have alone :
      ∀ other ∈ index.data, other.rank = (index.makeKey txn).rank → other = index.makeKey txn :=
    fun other _ same => TTLOrderingKey.rank_injective same
  rw [TTLIndex.insert, RankedSet.mem_insert alone, refers key]
  constructor
  · rintro (rfl | ⟨other, found, own, notPending⟩)
    · exact ⟨txn, addition.own, rfl, nofun⟩
    · exact ⟨other, (addition.lookup_eq_some_iff free).mpr (.inr found), own, notPending⟩
  · rintro ⟨other, found, own, notPending⟩
    rcases (addition.lookup_eq_some_iff free).mp found with
      ⟨-, rfl⟩ | inBefore
    · exact .inl own.symm
    · exact .inr ⟨other, inBefore, own, notPending⟩

/-- Storing a transaction at a free place keeps the indexes in step. -/
theorem Indexed.storeTxn (indexed : store.Indexed hasher) {txns : AccountTransactions Data}
    (found : store.transactions.get? txn.txn.sender = some txns) (atPointer : txn.At txn.pointer)
    (free : store.lookup txn.pointer = none) :
    (TransactionStore.store hasher store txns txn).Indexed hasher ∧
      store.Addition txn (.store hasher store txns txn) := by
  have lookups : ∀ pointer, (TransactionStore.store hasher store txns txn).lookup pointer =
    if txn.txn.sender = pointer.1 then
      (txns.insert txn.sequenceInfo.transactionSequenceNumber txn).get? pointer.2
    else store.lookup pointer :=
    store.lookup_insert _ _
  have addition : store.Addition txn (.store hasher store txns txn) := by
    refine ⟨?_, ?_, fun _ => .rfl, fun _ => .rfl, rfl, rfl⟩
    · have sameSender : txn.txn.sender = txn.pointer.1 := rfl
      have sameNumber : txn.sequenceInfo.transactionSequenceNumber = txn.pointer.2 := rfl
      rw [lookups, if_pos sameSender, get?_insert, if_pos sameNumber]
    · intro pointer different
      rw [lookups]
      split
      · rename_i sameSender
        rw [get?_insert, if_neg, ← lookup_of_get? found, sameSender]
        intro sameNumber
        exact different (Prod.ext sameSender.symm sameNumber.symm)
      · rfl
  have cases : ∀ {pointer : TxnPointer} {other : MempoolTransaction Data},
        (TransactionStore.store hasher store txns txn).lookup pointer = some other ↔
          (pointer = txn.pointer ∧ other = txn) ∨ store.lookup pointer = some other :=
    addition.lookup_eq_some_iff free
  refine ⟨⟨?_, indexed.systemTime, indexed.clientTime, indexed.system.addition addition free,
    indexed.expiration.addition addition free, ?_, ?_, indexed.parking, ?_⟩, addition⟩
  · intro pointer other there
    rcases cases.mp there with ⟨rfl, rfl⟩ | old
    · exact atPointer
    · exact indexed.keyed pointer other old
  · intro hash pointer
    change (store.hashIndex.insert (hasher.hash txn.txn) txn.pointer).get? hash = some pointer ↔ _
    rw [get?_insert]
    split
    · rename_i sameHash
      subst sameHash
      rw [Option.some.injEq]
      constructor
      · rintro rfl
        exact ⟨txn, addition.own, rfl⟩
      · rintro ⟨other, there, same⟩
        rcases cases.mp there with ⟨rfl, -⟩ | old
        · rfl
        · exact atPointer.unique (indexed.keyed _ _ old) (hasher.injective same).symm
    · rename_i otherHash
      rw [indexed.hashes]
      refine exists_congr fun other => and_congr_left ?_
      rintro rfl
      rw [cases]
      refine (or_iff_right ?_).symm
      rintro ⟨-, rfl⟩
      exact otherHash rfl
  · intro key member
    obtain ⟨other, old, own⟩ := indexed.queued key member
    exact ⟨other, cases.mpr (.inr old), own⟩
  · intro pointer isParked
    obtain ⟨other, old⟩ := indexed.parked pointer isParked
    exact ⟨other, cases.mpr (.inr old)⟩

/-- An account without transactions changes nothing. -/
theorem lookup_orInsert (store : TransactionStore Data Hash) (address : AccountAddress)
    (pointer : TxnPointer) :
    lookup { store with transactions := store.transactions.orInsert address .empty } pointer =
      store.lookup pointer := by
  rw [orInsert]
  cases found : store.transactions.get? address with
  | some txns => rfl
  | none =>
    rw [lookup_insert]
    split
    · rename_i same
      rw [get?_empty, lookup_eq, ← same, found]
      rfl
    · rfl

theorem Indexed.orInsert (indexed : store.Indexed hasher) (address : AccountAddress) :
    Indexed hasher
      { store with transactions := store.transactions.orInsert address .empty }
      nothing nothing := by
  refine indexed.resorted ⟨?_, rfl, rfl, rfl, rfl, rfl⟩ indexed.queued
    indexed.parking indexed.parked
  intro pointer
  rw [lookup_orInsert]

variable {address : AccountAddress}

theorem Loses.of_orInsert {gone : TxnPointer → Prop}
    (loses : Loses hasher nothing nothing
      { store with transactions := store.transactions.orInsert address .empty }
      gone after) :
    store.Loses hasher nothing nothing gone after := by
  refine ⟨loses.indexed, { loses.removal with kept := ?_ }, loses.unlogs.next, ?_⟩
  · intro pointer notGone
    rw [loses.removal.kept pointer notGone, lookup_orInsert]
  · intro id pointer
    rw [loses.unlogs.log]
    simp only [lookup_orInsert]

theorem transactions_indexRemove (txns : List (MempoolTransaction Data))
    (store : TransactionStore Data Hash) :
    (txns.foldl (indexRemove hasher) store).transactions = store.transactions := by
  induction txns generalizing store with
  | nil => rfl
  | cons txn txns ih =>
    rw [List.foldl_cons, ih]
    rfl

/-- An account stays in the store when old transactions are forgotten. -/
theorem exists_get?_cleanCommittedTransactions (hasher : CommittedHash Data Hash)
    (store : TransactionStore Data Hash) (there : store.transactions.get? address ≠ none)
    (sequenceNumber : Nat) :
    ∃ txns, (cleanCommittedTransactions hasher store address
      sequenceNumber).transactions.get? address = some txns := by
  rw [cleanCommittedTransactions]
  cases found : store.transactions.get? address with
  | none => exact absurd found there
  | some txns =>
    refine ⟨txns.filter fun entry => sequenceNumber ≤ entry.1, ?_⟩
    rw [transactions_indexRemove, get?_insert, if_pos rfl]

theorem get?_orInsert_ne_none (store : TransactionStore Data Hash) (address : AccountAddress) :
    (store.transactions.orInsert address .empty).get? address ≠ none := by
  rw [orInsert]
  cases found : store.transactions.get? address with
  | some txns => simp [found]
  | none => simp [get?_insert]

/-- At most one transaction is evicted, and it was parked. -/
theorem Indexed.evict (indexed : store.Indexed hasher) (choice : Nat)
    (txn : MempoolTransaction Data) (currSequenceNumber : Nat) :
    ∃ gone : TxnPointer → Prop, (∀ pointer, gone pointer → store.Parked pointer) ∧
      store.Loses hasher nothing nothing gone
        (evict hasher choice store txn currSequenceNumber) := by
  have same : ∃ gone : TxnPointer → Prop, (∀ pointer, gone pointer → store.Parked pointer) ∧
    store.Loses hasher nothing nothing gone store :=
    ⟨fun _ => False, nofun, indexed.removal_refl nofun⟩
  rw [TransactionStore.evict]
  split
  · split
    · rename_i address sequenceNumber chosen
      refine ⟨_, ?_, indexed.removeTxn (address, sequenceNumber)⟩
      rintro pointer rfl
      exact indexed.parking.contains_getPoppable chosen
    · exact same
  · exact same

/-- What can become of a store when a transaction is submitted for a free place. -/
inductive Outcome (hasher : CommittedHash Data Hash)
    (store : TransactionStore Data Hash) (txn : MempoolTransaction Data) :
    TransactionStore Data Hash → Prop
  | full {gone : TxnPointer → Prop} {evicted : TransactionStore Data Hash}
      (parked : ∀ pointer, gone pointer → store.Parked pointer)
      (removal : store.Removal gone evicted)
      (indexed : evicted.Indexed hasher)
      (size : evicted.capacity ≤ evicted.systemTtlIndex.size) :
      Outcome hasher store txn evicted
  | tooMany {gone : TxnPointer → Prop}
      {evicted cleaned : TransactionStore Data Hash}
      {txns : AccountTransactions Data}
      (parked : ∀ pointer, gone pointer → store.Parked pointer)
      (removal : store.Removal gone evicted)
      (cleaning : evicted.Removal
        (fun pointer => pointer.1 = txn.txn.sender ∧ pointer.2 < txn.minSeq) cleaned)
      (indexed : cleaned.Indexed hasher)
      (found : cleaned.transactions.get? txn.txn.sender = some txns)
      (size : cleaned.capacityPerUser ≤ txns.size) :
      Outcome hasher store txn cleaned
  | accepted {gone : TxnPointer → Prop}
      {evicted cleaned added : TransactionStore Data Hash}
      {txns : AccountTransactions Data}
      (parked : ∀ pointer, gone pointer → store.Parked pointer)
      (removal : store.Removal gone evicted)
      (evictedIndexed : evicted.Indexed hasher)
      (room : evicted.systemTtlIndex.size < evicted.capacity)
      (cleaning : evicted.Removal
        (fun pointer => pointer.1 = txn.txn.sender ∧ pointer.2 < txn.minSeq) cleaned)
      (cleanedIndexed : cleaned.Indexed hasher)
      (found : cleaned.transactions.get? txn.txn.sender = some txns)
      (size : txns.size < cleaned.capacityPerUser)
      (free : cleaned.lookup txn.pointer = none)
      (addition : cleaned.Addition txn added)
      (indexed : added.Indexed hasher) :
      Outcome hasher store txn
        (added.processReadyTransactions txn.txn.sender txn.sequenceInfo.accountSequenceNumberType)

/-- A transaction for a free place is stored, unless there is no room. -/
theorem Indexed.insertNew (indexed : store.Indexed hasher) (choice : Nat)
    (atPointer : txn.At txn.pointer) (free : store.lookup txn.pointer = none) :
    Outcome hasher store txn (insertNew hasher choice store txn).2 := by
  rw [TransactionStore.insertNew]
  dsimp only
  obtain ⟨gone, parked, evictedIndexed, removal, -⟩ := indexed.evict choice txn txn.minSeq
  generalize TransactionStore.evict hasher choice store txn txn.minSeq = evicted at *
  split
  · rename_i isFull
    exact .full parked removal evictedIndexed isFull
  · rename_i notFull
    obtain ⟨cleanedIndexed, cleaning, -⟩ :=
      ((evictedIndexed.orInsert txn.txn.sender).cleanCommittedTransactions txn.txn.sender
        txn.minSeq).of_orInsert
    obtain ⟨txns, found⟩ := exists_get?_cleanCommittedTransactions hasher
      { evicted with
        transactions := evicted.transactions.orInsert txn.txn.sender .empty }
      (get?_orInsert_ne_none evicted txn.txn.sender) txn.minSeq
    generalize TransactionStore.cleanCommittedTransactions hasher _ txn.txn.sender txn.minSeq =
      cleaned at *
    rw [found]
    dsimp only
    split
    · rename_i tooMany
      exact .tooMany parked removal cleaning cleanedIndexed found tooMany
    · rename_i fits
      have stillFree := cleaning.lookup_eq_none (removal.lookup_eq_none free)
      obtain ⟨addedIndexed, addition⟩ := cleanedIndexed.storeTxn found atPointer stillFree
      exact .accepted parked removal evictedIndexed (not_le.mp notFull)
        cleaning cleanedIndexed found (not_le.mp fits) stillFree addition
        addedIndexed

section

variable [DecidableEq Data]
  (indexed : store.Indexed hasher)
  (choice : Nat)
  (atPointer : txn.At txn.pointer)
include indexed atPointer

/--
What losing transactions keeps, and storing the new one before the ready ones are found
again, is kept by a submission.
-/
theorem Indexed.insert_induction {motive : TransactionStore Data Hash → Prop} (start : motive store)
    (loses : ∀ gone before after,
      motive before → before.Loses hasher nothing nothing gone after → motive after)
    (adds : ∀ before added, motive before → before.Indexed hasher →
      before.lookup txn.pointer = none → before.Addition txn added →
        added.timelineIndex = before.timelineIndex → added.Indexed hasher → motive
          (added.processReadyTransactions txn.txn.sender
            txn.sequenceInfo.accountSequenceNumberType)) :
    motive (insert hasher choice store txn).2 := by
  have placed : ∀ before : TransactionStore Data Hash,
        motive before → before.Indexed hasher → before.lookup txn.pointer = none →
          motive (TransactionStore.insertNew hasher choice before txn).2 := by
    intro before holds indexed free
    rw [TransactionStore.insertNew]
    dsimp only
    obtain ⟨gone, -, evicted⟩ := indexed.evict choice txn txn.minSeq
    replace holds := loses _ _ _ holds evicted
    replace free := evicted.removal.lookup_eq_none free
    split
    · exact holds
    · have cleaned :=
        ((evicted.indexed.orInsert txn.txn.sender).cleanCommittedTransactions txn.txn.sender
          txn.minSeq).of_orInsert
      replace holds := loses _ _ _ holds cleaned
      replace free := cleaned.removal.lookup_eq_none free
      split
      · split
        · exact holds
        · rename_i found _
          obtain ⟨indexed, addition⟩ := cleaned.indexed.storeTxn found atPointer free
          exact adds _ _ holds cleaned.indexed free addition rfl indexed
      · rename_i missing
        rw [TransactionStore.processReadyTransactions, missing]
        exact holds
  rw [TransactionStore.insert]
  split
  · split
    · exact start
    · split
      · have removed := indexed.removeTxn txn.pointer
        exact placed _ (loses _ _ _ start removed) removed.indexed (removed.removal.lost _ rfl)
      · exact start
  · exact placed _ start indexed ‹_›

theorem Indexed.insert : (insert hasher choice store txn).2.Indexed hasher :=
  indexed.insert_induction choice atPointer indexed (fun _ _ _ _ loses => loses.indexed)
    fun _ _ _ _ _ _ _ added => (added.processReadyTransactions _ _).1

end

/-- A commit keeps the indexes in step. -/
theorem Indexed.commitTransaction (indexed : store.Indexed hasher)
    (account : AccountAddress) (accountSequenceNumber : AccountSequenceInfo) :
    (commitTransaction hasher store account accountSequenceNumber).Indexed hasher :=
  ((indexed.cleanCommittedTransactions account
    accountSequenceNumber.minSeq).indexed.processReadyTransactions _ _).1

end TransactionStore

end Insertions

end Diem.CoreMempool
