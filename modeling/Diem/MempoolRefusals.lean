import Diem.MempoolRuns

namespace Diem.CoreMempool

/-!
# Refused transactions

What the store loses when it refuses a transaction.  An eviction for the new transaction
comes before the check of the limit of its account, and is not undone.
-/

section Refusals

variable {Data Hash : Type} [LinearOrder Hash]
  {hasher : CommittedHash Data Hash}

namespace TransactionStore

variable {store after : TransactionStore Data Hash}
  {txn : MempoolTransaction Data} {choice : Nat}

/-- The stored transactions are the same, but for committed ones of the account. -/
def Spares (store : TransactionStore Data Hash) (account : AccountAddress) (minSeq : Nat)
    (after : TransactionStore Data Hash) : Prop :=
  ∀ pointer txn, ¬ (pointer.1 = account ∧ pointer.2 < minSeq) →
    (after.lookup pointer = some txn ↔ store.lookup pointer = some txn)

/-- The store is full, and a parked transaction can be evicted for the new one. -/
def Evicts (store : TransactionStore Data Hash) (choice : Nat)
    (txn : MempoolTransaction Data) : Prop :=
  store.capacity ≤ store.systemTtlIndex.size ∧
    store.checkTxnReady txn txn.minSeq = true ∧
    store.parkingLotIndex.getPoppable choice ≠ none

/-- The account has all transactions it may have, without the committed ones. -/
def AccountFull (store : TransactionStore Data Hash) (account : AccountAddress)
    (minSeq : Nat) : Prop :=
  store.capacityPerUser ≤ ((store.numbers account).filter fun number => minSeq ≤ number).length

/-- The transaction is new, and the limit of its account is reached when another one goes for it. -/
def EvictsInVain (store : TransactionStore Data Hash) (choice : Nat)
    (txn : MempoolTransaction Data) : Prop :=
  store.lookup txn.pointer = none ∧ store.Evicts choice txn ∧
    store.AccountFull txn.txn.sender txn.minSeq

section

variable (indexed : store.Indexed hasher)
include indexed

/-- What is there after the eviction. -/
theorem evict_cases :
    ∃ evicted,
      evict hasher choice store txn txn.minSeq = evicted ∧
        evicted.Indexed hasher ∧
        ((¬ store.Evicts choice txn ∧ evicted = store) ∨
          (store.Evicts choice txn ∧
            ∃ pointer, store.Stored pointer ∧ store.Removal (· = pointer) evicted)) := by
  refine ⟨_, rfl, ?_⟩
  rw [evict, Evicts]
  split
  · rename_i full
    split
    · rename_i address number chosen
      obtain ⟨left, removal, -⟩ := indexed.removeTxn (address, number)
      refine ⟨left, .inr ⟨⟨full.1, full.2, by simp [chosen]⟩, _, ?_, removal⟩⟩
      exact indexed.parked _ (indexed.parking.contains_getPoppable chosen)
    · rename_i none
      exact ⟨indexed, .inl ⟨fun evicts => evicts.2.2 none, rfl⟩⟩
  · rename_i notFull
    exact ⟨indexed, .inl ⟨fun evicts => notFull ⟨evicts.1, evicts.2.1⟩, rfl⟩⟩

/-- A refusal for a free place: a limit is reached, and only an eviction loses something. -/
theorem insertNew_refused (limited : store.Limited)
    (refused : (insertNew hasher choice store txn).1.code ≠ .accepted) :
    (store.capacity ≤ store.pointers.length ∨
      store.capacityPerUser ≤ (store.numbers txn.txn.sender).length) ∧
    (store.Spares txn.txn.sender txn.minSeq
        (insertNew hasher choice store txn).2 ↔
      ¬ (store.Evicts choice txn ∧
        store.AccountFull txn.txn.sender txn.minSeq)) := by
  obtain ⟨evicted, shape, evictedIndexed, cases⟩ := evict_cases indexed
  rw [insertNew, shape] at refused ⊢
  dsimp only at refused ⊢
  split at refused
  · rename_i full
    rw [if_pos full]
    rw [evictedIndexed.size_eq] at full
    rcases cases with ⟨keeps, rfl⟩ | ⟨-, pointer, stored, removal⟩
    · exact ⟨.inl full, iff_of_true (fun _ _ _ => .rfl) fun both => keeps both.1⟩
    · have fewer := (removal.length_lt rfl stored).1
      have limit := limited.capacity
      rw [removal.capacity] at full
      omega
  · rename_i notFull
    rw [if_neg notFull]
    have cleaned :=
      ((evictedIndexed.orInsert txn.txn.sender).cleanCommittedTransactions txn.txn.sender
        txn.minSeq).of_orInsert.removal
    generalize cleanCommittedTransactions hasher _ txn.txn.sender txn.minSeq = left at *
    cases found : left.transactions.get? txn.txn.sender with
    | none => simp [found] at refused
    | some txns =>
      simp only [found] at refused ⊢
      split at refused
      · rename_i tooMany
        rw [if_pos tooMany]
        rw [← length_numbers found, cleaned.capacityPerUser] at tooMany
        have fewer :
            (left.numbers txn.txn.sender).length ≤ (evicted.numbers txn.txn.sender).length :=
          length_numbers_le fun _ => cleaned.stored
        rcases cases with ⟨keeps, rfl⟩ | ⟨evicts, pointer, ⟨lost, there⟩, removal⟩
        · refine ⟨.inr (tooMany.trans fewer), iff_of_true ?_ fun both => keeps both.1⟩
          intro pointer txn notCommitted
          rw [cleaned.kept pointer notCommitted]
        · have limit := limited.capacityPerUser txn.txn.sender
          have notOwn : pointer.1 ≠ txn.txn.sender := by
            intro own
            have fewerOwn := (removal.length_lt rfl ⟨lost, there⟩).2
            rw [removal.capacityPerUser] at tooMany
            rw [own] at fewerOwn
            omega
          rw [removal.capacityPerUser] at tooMany
          -- what is left of the account was there before and is not committed
          have accountFull : store.AccountFull txn.txn.sender txn.minSeq := by
            refine
              tooMany.trans (length_le_of_subset (left.nodup_numbers _) fun number member => ?_)
            have stays := mem_numbers.mp member
            rw [cleaned.stored_iff] at stays
            rw [List.mem_filter, mem_numbers, decide_eq_true_iff]
            exact ⟨removal.stored stays.1, not_lt.mp fun committed => stays.2 ⟨rfl, committed⟩⟩
          refine ⟨.inr ?_, iff_of_false (fun spares => ?_) fun keeps => keeps ⟨evicts, accountFull⟩⟩
          · exact (tooMany.trans fewer).trans (length_numbers_le fun _ => removal.stored)
          · have kept := (spares pointer lost fun both => notOwn both.1).mpr there
            rw [cleaned.kept _ fun both => notOwn both.1, removal.lost _ rfl] at kept
            cases kept
      · exact absurd rfl refused

theorem Limited.insert [DecidableEq Data] (limited : store.Limited)
    (choice : Nat) (atPointer : txn.At txn.pointer) :
    (insert hasher choice store txn).2.Limited := by
  rw [TransactionStore.insert]
  split
  · split
    · exact limited
    · split
      · obtain ⟨left, removal, -⟩ := indexed.removeTxn txn.pointer
        exact (left.insertNew choice atPointer (removal.lost _ rfl)).limited
          (limited.removal removal)
      · exact limited
  · rename_i free
    exact (indexed.insertNew choice atPointer free).limited limited

end

end TransactionStore

namespace Mempool

open TransactionStore

variable [DecidableEq Data]

theorem limited_call {mempool : Mempool Data Hash} (limited : mempool.transactions.Limited)
    (indexed : mempool.transactions.Indexed hasher)
    (call : MempoolCall Data) : (mempool.call hasher call).transactions.Limited := by
  cases call with
  | addTxn now epochTime choice submission =>
    rw [Mempool.call, addTxn]
    split
    · exact limited
    · exact limited.insert indexed choice ⟨rfl, rfl, rfl⟩
  | removeTransaction now later sender sequenceNumber isRejected =>
    rw [Mempool.call, removeTransaction]
    dsimp only
    split
    · split
      · exact limited.removal (indexed.rejectTransaction sender).removal
      · exact limited
    · exact (limited.removal (indexed.cleanCommittedTransactions sender _).removal
        ).resorted ((indexed.cleanCommittedTransactions sender _
          ).indexed.processReadyTransactions sender _).2
  | gc now epochTime =>
    obtain ⟨-, keys, -, expiry, -⟩ := indexed.gcBySystemTtl epochTime
    exact limited.expiry expiry
  | gcByExpirationTime blockTime =>
    obtain ⟨-, keys, -, expiry, -⟩ := indexed.gcByExpirationTime blockTime
    exact limited.expiry expiry

variable (hasher : CommittedHash Data Hash)
  (config : MempoolConfig)
  (calls : List (MempoolCall Data))

/-- Whatever calls are made, the limits are kept. -/
theorem limited_run : ((Mempool.new config).run hasher calls).transactions.Limited := by
  induction calls using List.reverseRecOn with
  | nil => exact ⟨Nat.zero_le _, fun _ => Nat.zero_le _⟩
  | append_singleton calls call ih =>
    rw [run, List.foldl_append]
    exact limited_call ih (indexed_run hasher config calls) call

/--
A refused transaction costs nobody else a place, exactly if none is evicted for a new
transaction of a full account.
-/
theorem refused_iff (choice : Nat) (txn : MempoolTransaction Data) :
    let store := ((Mempool.new config).run hasher calls).transactions
    let result := TransactionStore.insert hasher choice store txn
    result.1.code ≠ .accepted →
      (store.Spares txn.txn.sender txn.minSeq result.2 ↔
        ¬ store.EvictsInVain choice txn) := by
  intro store result refused
  have indexed : store.Indexed hasher := indexed_run hasher config calls
  have limited : store.Limited := limited_run hasher config calls
  have shape : result = TransactionStore.insert hasher choice store txn := rfl
  rw [TransactionStore.insert] at shape
  split at shape
  · rename_i currentVersion current
    split at shape
    · rw [shape] at refused
      exact absurd rfl refused
    · split at shape
      · -- the replaced transaction leaves room, so that the new one is accepted
        obtain ⟨left, removal, -⟩ := indexed.removeTxn txn.pointer
        obtain ⟨fewer, fewerOwn⟩ := removal.length_lt rfl ⟨currentVersion, current⟩
        rw [shape] at refused
        have limit := limited.capacity
        have limitOwn := limited.capacityPerUser txn.txn.sender
        have reached := (insertNew_refused left (limited.removal removal) refused).1
        rw [removal.capacity, removal.capacityPerUser] at reached
        change _ < (store.numbers txn.txn.sender).length at fewerOwn
        change (numbers _ txn.txn.sender).length < _ at fewerOwn
        omega
      · rw [shape]
        refine iff_of_true (fun _ _ _ => .rfl) fun inVain => ?_
        change store.lookup txn.pointer = some currentVersion at current
        rw [inVain.1] at current
        cases current
  · rename_i free
    change store.lookup txn.pointer = none at free
    rw [shape] at refused ⊢
    rw [(insertNew_refused indexed limited refused).2, EvictsInVain, and_iff_right free]

/-- A transaction of an account without committed ones. -/
def waiting (account sequenceNumber : Nat) : MempoolTransaction Unit where
  txn := plainTxn account sequenceNumber
  expirationTime := 100
  gasAmount := 1
  rankingScore := 1
  timelineState := .notReady
  governanceRole := .nonGovernanceRole
  sequenceInfo := ⟨sequenceNumber, .sequential 0⟩

/--
Two places, one for each account: the number 1 of the account 8 is parked, the number 0 of the
account 7 is ready.
-/
def crowded : List (MempoolCall Unit) :=
  [(8, 1), (7, 0)].map fun pointer => .addTxn 0 0 0
    ⟨(waiting pointer.1 pointer.2).txn, 1, 1, .sequential 0, .notReady, .nonGovernanceRole⟩

/-- The number 5 of the account 7 is not ready, and no transaction goes for it. -/
theorem refused_iff_crowded :
    let store := ((Mempool.new ⟨2, 1, 100⟩).run plainHash crowded).transactions
    let result := TransactionStore.insert plainHash 0 store (waiting 7 5)
    result.1.code = .mempoolIsFull ∧ store.Spares 7 0 result.2 := by
  refine ⟨by decide +kernel, ?_⟩
  exact (refused_iff plainHash ⟨2, 1, 100⟩ crowded 0 (waiting 7 5) (by decide +kernel)).mpr
    fun inVain => absurd inVain.2.1.2.1 (by decide +kernel)

/--
The number 1 of the account 7 is ready, and refused because the account is full; the account 8
has lost its transaction.
-/
theorem refused_evicts :
    let store := ((Mempool.new ⟨2, 1, 100⟩).run plainHash crowded).transactions
    let result := TransactionStore.insert plainHash 0 store (waiting 7 1)
    result.1.code = .tooManyTransactions ∧ (store.lookup (8, 1)).isSome = true ∧
      result.2.lookup (8, 1) = none := by
  decide +kernel

end Mempool

end Refusals

end Diem.CoreMempool
