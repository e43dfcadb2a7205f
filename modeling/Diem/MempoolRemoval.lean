import Diem.MempoolStoreSpec

namespace Diem.CoreMempool

open OrderedMap

/-!
# Removals

How removing transactions changes the stored, ready and parked pointers, with all
indexes in step.
-/

section Operations

variable {Data Hash : Type} [LinearOrder Hash]

namespace TransactionStore

variable {store : TransactionStore Data Hash}
  {hasher : CommittedHash Data Hash}
  {pendingSystem pendingExpiration : TxnPointer → Prop}

theorem lookup_eq (store : TransactionStore Data Hash) (pointer : TxnPointer) :
    store.lookup pointer =
      (store.transactions.get? pointer.1).bind fun txns => txns.get? pointer.2 := by
  rw [lookup, getMempoolTxn]
  cases store.transactions.get? pointer.1 <;> rfl

theorem lookup_insert (store : TransactionStore Data Hash) (address : AccountAddress)
    (txns : AccountTransactions Data) (pointer : TxnPointer) :
    lookup { store with transactions := store.transactions.insert address txns } pointer =
      if address = pointer.1 then txns.get? pointer.2
      else store.lookup pointer := by
  rw [lookup_eq, lookup_eq, get?_insert]
  split <;> rfl

variable {address : AccountAddress}

theorem lookup_of_get? {txns : AccountTransactions Data}
    (found : store.transactions.get? address = some txns) (sequenceNumber : Nat) :
    store.lookup (address, sequenceNumber) = txns.get? sequenceNumber := by
  rw [lookup_eq, found]
  rfl

section

variable (indexed : store.Indexed hasher pendingSystem pendingExpiration)
include indexed

variable {gone : TxnPointer → Prop}

/-- Nothing has to be removed if nothing is there. -/
theorem Indexed.removal_refl (absent : ∀ pointer, gone pointer → store.lookup pointer = none) :
    store.Loses hasher pendingSystem pendingExpiration gone store := by
  have notStored : ∀ pointer, store.Stored pointer → ¬ gone pointer := by
    rintro pointer ⟨txn, found⟩ isGone
    rw [absent pointer isGone] at found
    cases found
  refine ⟨indexed, ⟨absent, fun _ _ => rfl, ?_, ?_, rfl, rfl⟩, rfl, ?_⟩
  · intro pointer
    rw [iff_self_and]
    exact fun ready => notStored pointer (indexed.stored_of_ready ready)
  · intro pointer
    rw [iff_self_and]
    exact fun parked => notStored pointer (indexed.parked pointer parked)
  · intro id pointer
    rw [iff_self_and]
    exact fun _ other txn found isGone _ => notStored other ⟨txn, found⟩ isGone

/-- The transactions of an account with some sequence numbers. -/
theorem Indexed.picks {chosen : Nat → Prop} {removed : List (MempoolTransaction Data)}
    (shape : ∀ pointer, gone pointer ↔ pointer.1 = address ∧ chosen pointer.2)
    (values :
      ∀ txn, txn ∈ removed ↔ ∃ number, store.lookup (address, number) = some txn ∧ chosen number) :
    store.Picks gone removed := by
  constructor
  · intro txn member
    obtain ⟨number, there, isChosen⟩ := (values txn).mp member
    rw [(indexed.keyed _ _ there).pointer_eq, shape]
    exact ⟨there, rfl, isChosen⟩
  · intro pointer txn there isGone
    obtain ⟨rfl, isChosen⟩ := (shape pointer).mp isGone
    exact (values txn).mpr ⟨pointer.2, there, isChosen⟩

theorem Indexed.removeTxn (pointer : TxnPointer) :
    store.Loses hasher pendingSystem pendingExpiration (· = pointer)
      (removeTxn hasher store pointer.1 pointer.2) := by
  have absent (none : store.lookup pointer = none) :=
    indexed.removal_refl fun other (same : other = pointer) => same ▸ none
  rw [TransactionStore.removeTxn]
  cases found : store.transactions.get? pointer.1 with
  | none =>
    refine absent ?_
    rw [lookup_eq, found]
    rfl
  | some txns =>
    have same := lookup_of_get? found pointer.2
    dsimp only
    cases there : txns.get? pointer.2 with
    | none => exact absent (same.trans there)
    | some txn =>
      have stored : store.lookup pointer = some txn := same.trans there
      have ownPointer := (indexed.keyed _ _ stored).pointer_eq
      have picks : store.Picks (· = pointer) [txn] := by
        constructor
        · intro other member
          rw [List.mem_singleton.mp member, ownPointer]
          exact ⟨stored, rfl⟩
        · rintro other otherTxn otherFound rfl
          rw [stored] at otherFound
          cases otherFound
          exact List.mem_singleton_self txn
      refine indexed.removal picks rfl ?_ ?_
      · rintro other rfl
        rw [lookup_insert, if_pos rfl, get?_erase, if_pos rfl]
      · intro other different
        rw [lookup_insert]
        split
        · rename_i sameAddress
          rw [get?_erase, if_neg, ← lookup_of_get? found, sameAddress]
          intro sameNumber
          exact different (Prod.ext sameAddress.symm sameNumber.symm)
        · rfl

/-- Forget what is before a sequence number. -/
theorem Indexed.cleanCommittedTransactions (address : AccountAddress) (sequenceNumber : Nat) :
    store.Loses hasher pendingSystem pendingExpiration
      (fun pointer => pointer.1 = address ∧ pointer.2 < sequenceNumber)
      (cleanCommittedTransactions hasher store address sequenceNumber) := by
  rw [TransactionStore.cleanCommittedTransactions]
  cases found : store.transactions.get? address with
  | none =>
    refine indexed.removal_refl ?_
    rintro pointer ⟨rfl, -⟩
    rw [lookup_eq, found]
    rfl
  | some txns =>
    have lookups := lookup_of_get? found
    have values : ∀ txn, txn ∈ (txns.filter fun entry =>
        entry.1 < sequenceNumber).values ↔
      ∃ number, store.lookup (address, number) = some txn ∧ number < sequenceNumber := by
      intro txn
      rw [mem_values_iff]
      refine exists_congr fun number => ?_
      rw [get?_filter_eq_some_iff, lookups, decide_eq_true_iff]
    refine indexed.removal (indexed.picks (fun _ => .rfl) values) rfl ?_ ?_
    · rintro ⟨sender, number⟩ ⟨same, early⟩
      subst same
      rw [lookup_insert, if_pos rfl, Option.eq_none_iff_forall_ne_some]
      intro txn there
      have late := (get?_filter_eq_some_iff.mp there).2
      exact absurd early (not_lt.mpr (of_decide_eq_true late))
    · rintro ⟨other, number⟩ different
      rw [lookup_insert]
      split
      · rename_i same
        have late : sequenceNumber ≤ number := by
          by_contra early
          exact different ⟨same.symm, not_le.mp early⟩
        subst same
        ext txn
        rw [get?_filter_eq_some_iff, lookups]
        simp [late]
      · rfl

theorem Indexed.rejectTransaction (address : AccountAddress) :
    store.Loses hasher pendingSystem pendingExpiration (·.1 = address)
      (rejectTransaction hasher store address) := by
  rw [TransactionStore.rejectTransaction]
  cases found : store.transactions.get? address with
  | none =>
    refine indexed.removal_refl ?_
    rintro pointer rfl
    rw [lookup_eq, found]
    rfl
  | some txns =>
    have lookups := lookup_of_get? found
    have values :
        ∀ txn, txn ∈ txns.values ↔ ∃ number, store.lookup (address, number) = some txn ∧ True := by
      intro txn
      rw [mem_values_iff]
      refine exists_congr fun number => ?_
      rw [lookups, and_true]
    refine indexed.removal (indexed.picks (by simp) values) rfl ?_ ?_
    · rintro pointer rfl
      rw [lookup_eq, get?_erase, if_pos rfl]
      rfl
    · intro pointer different
      rw [lookup_eq, lookup_eq, get?_erase, if_neg (Ne.symm different)]

end

end TransactionStore

end Operations

end Diem.CoreMempool
