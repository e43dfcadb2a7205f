import Diem.MempoolBlocks

namespace Diem.CoreMempool

open Prod (ext fst snd)
open List OrderedMap

/-!
# Agreement of the indexes

The transactions of each account are split between the queue and the parking lot, all
indexes have one entry for each stored transaction, and the limits are kept.  Calls for
which a ready transaction lies behind a gap break the split; without such calls it holds.
-/

section Agreement

variable {Data Hash : Type} [LinearOrder Hash]

section Counting

variable {α : Type} {first second : List α}

theorem length_le_of_subset (nodup : first.Nodup) (subset : first ⊆ second) :
    first.length ≤ second.length :=
  (subperm_of_subset nodup subset).length_le

theorem length_le_succ (item : α) (nodup : first.Nodup)
    (subset : ∀ other ∈ first, other = item ∨ other ∈ second) : first.length ≤ second.length + 1 :=
  length_le_of_subset nodup fun other member => mem_cons.mpr (subset other member)

theorem length_lt_of_removed (item : α) (nodup : first.Nodup) (subset : first ⊆ second)
    (absent : item ∉ first) (there : item ∈ second) : first.length < second.length := by
  exact length_le_of_subset (nodup_cons.mpr ⟨absent, nodup⟩) (cons_subset.mpr ⟨there, subset⟩)

end Counting

namespace TransactionStore

variable {hasher : CommittedHash Data Hash}
  {store : TransactionStore Data Hash} {address : AccountAddress}

/-!
## Counting
-/

variable (store address) in
/-- The sequence numbers of the stored transactions of an account. -/
def numbers : List Nat :=
  match store.transactions.get? address with
  | some txns => txns.keys
  | none => []

variable (store) in
/-- The pointers to all stored transactions. -/
def pointers : List TxnPointer :=
  store.transactions.keys.flatMap fun address =>
    (store.numbers address).map fun number => (address, number)

theorem mem_numbers {number : Nat} :
    number ∈ store.numbers address ↔ store.Stored (address, number) := by
  rw [numbers, Stored, lookup_eq]
  cases store.transactions.get? address with
  | none => simp
  | some txns => exact mem_keys_iff

theorem nodup_numbers (store : TransactionStore Data Hash) (address : AccountAddress) :
    (store.numbers address).Nodup := by
  rw [numbers]
  split
  · exact keys_nodup _
  · exact nodup_nil

variable {txns : AccountTransactions Data}

theorem length_numbers (found : store.transactions.get? address = some txns) :
    (store.numbers address).length = txns.size := by
  rw [numbers, found]
  exact txns.length_keys

theorem mem_pointers {pointer : TxnPointer} : pointer ∈ store.pointers ↔ store.Stored pointer := by
  obtain ⟨address, number⟩ := pointer
  rw [pointers, mem_flatMap]
  constructor
  · rintro ⟨account, -, member⟩
    obtain ⟨other, inside, same⟩ := mem_map.mp member
    cases same
    exact mem_numbers.mp inside
  · intro stored
    refine ⟨address, ?_, mem_map.mpr ⟨number, mem_numbers.mpr stored, rfl⟩⟩
    obtain ⟨txn, found⟩ := stored
    rw [lookup_eq] at found
    obtain ⟨txns, account, -⟩ := Option.bind_eq_some_iff.mp found
    exact mem_keys_iff.mpr ⟨txns, account⟩

theorem nodup_pointers (store : TransactionStore Data Hash) : store.pointers.Nodup := by
  rw [pointers, nodup_flatMap]
  constructor
  · intro address _
    refine (store.nodup_numbers address).map ?_
    intro first second same
    exact congrArg snd same
  · refine store.transactions.keys_nodup.imp ?_
    intro first second different pointer inFirst inSecond
    obtain ⟨number, -, rfl⟩ := mem_map.mp inFirst
    obtain ⟨other, -, same⟩ := mem_map.mp inSecond
    exact different (congrArg fst same).symm

variable {before after : TransactionStore Data Hash}

theorem length_pointers_le (subset : ∀ pointer, after.Stored pointer → before.Stored pointer) :
    after.pointers.length ≤ before.pointers.length := by
  refine length_le_of_subset after.nodup_pointers fun pointer member => ?_
  exact mem_pointers.mpr (subset pointer (mem_pointers.mp member))

theorem length_numbers_le
    (subset : ∀ number, after.Stored (address, number) → before.Stored (address, number)) :
    (after.numbers address).length ≤ (before.numbers address).length := by
  refine length_le_of_subset (after.nodup_numbers address) fun number member => ?_
  exact mem_numbers.mpr (subset number (mem_numbers.mp member))

/-- An index by expiration time has one entry for each stored transaction. -/
theorem RefersTo.perm {index : TTLIndex Data} (refers : store.RefersTo index nothing)
    (keyed : ∀ pointer txn, store.lookup pointer = some txn → txn.At pointer) :
    index.data.keys.map TTLOrderingKey.pointer ~ store.pointers := by
  refine (perm_ext_iff_of_nodup ?_ store.nodup_pointers).mpr ?_
  · refine index.data.nodup_keys.map_on ?_
    intro first firstMember second secondMember same
    obtain ⟨txn, found, own, -⟩ := (refers first).mp (RankedSet.mem_keys.mp firstMember)
    obtain ⟨other, otherFound, otherOwn, -⟩ :=
      (refers second).mp (RankedSet.mem_keys.mp secondMember)
    change store.lookup first.pointer = some txn at found
    change store.lookup second.pointer = some other at otherFound
    rw [← same, found] at otherFound
    cases otherFound
    exact own.symm.trans otherOwn
  · intro pointer
    rw [mem_pointers, mem_map]
    constructor
    · rintro ⟨key, member, rfl⟩
      obtain ⟨txn, found, -⟩ := (refers key).mp (RankedSet.mem_keys.mp member)
      exact ⟨txn, found⟩
    · rintro ⟨txn, found⟩
      have atPointer := keyed pointer txn found
      have own : (index.makeKey txn).pointer = pointer := ext atPointer.sender atPointer.info
      refine ⟨index.makeKey txn, RankedSet.mem_keys.mpr ?_, own⟩
      refine (refers _).mpr ⟨txn, ?_, rfl, nofun⟩
      rw [← TTLOrderingKey.pointer, own]
      exact found

theorem Indexed.size_eq (indexed : store.Indexed hasher) :
    store.systemTtlIndex.size = store.pointers.length := by
  rw [TTLIndex.size, ← RankedSet.length_keys,
    ← (indexed.system.perm indexed.keyed).length_eq, length_map]

/-- The index by hash has one entry for each stored transaction. -/
theorem Indexed.hashes_perm (indexed : store.Indexed hasher) :
    store.hashIndex.values ~ store.pointers := by
  have nodup : store.hashIndex.entries.Nodup :=
    List.Nodup.of_map fst store.hashIndex.keys_nodup
  refine (perm_ext_iff_of_nodup ?_ store.nodup_pointers).mpr ?_
  · refine nodup.map_on ?_
    rintro ⟨hash, pointer⟩ member ⟨otherHash, other⟩ otherMember same
    subst same
    obtain ⟨txn, found, own⟩ := (indexed.hashes hash pointer).mp (get?_eq_some_iff.mpr member)
    obtain ⟨otherTxn, otherFound, otherOwn⟩ :=
      (indexed.hashes otherHash pointer).mp (get?_eq_some_iff.mpr otherMember)
    rw [found] at otherFound
    cases otherFound
    rw [← own, ← otherOwn]
  · intro pointer
    rw [mem_pointers, mem_values_iff]
    constructor
    · rintro ⟨hash, found⟩
      obtain ⟨txn, there, -⟩ := (indexed.hashes hash pointer).mp found
      exact ⟨txn, there⟩
    · rintro ⟨txn, there⟩
      exact ⟨hasher.hash txn.txn, (indexed.hashes _ pointer).mpr ⟨txn, there, rfl⟩⟩

/-!
## The split of the transactions
-/

variable (store address) in
/-- Stored transactions of an account are ready or parked, and not both. -/
structure Placed : Prop where
  some : ∀ number, store.Stored (address, number) →
    store.Ready (address, number) ∨ store.Parked (address, number)
  one : ∀ number, store.Ready (address, number) → ¬ store.Parked (address, number)
  behind :
    ∀ ready parked, store.Ready (address, ready) → store.Parked (address, parked) → ready < parked

theorem Placed.of_behind
    (some : ∀ number, store.Stored (address, number) →
      store.Ready (address, number) ∨ store.Parked (address, number))
    (behind : ∀ ready parked,
      store.Ready (address, ready) → store.Parked (address, parked) → ready < parked) :
    store.Placed address :=
  ⟨some, fun _ ready parked => lt_irrefl _ (behind _ _ ready parked), behind⟩

variable (store address) in
/-- The ready transactions of an account come first and have consecutive numbers. -/
structure Split : Prop extends Placed store address where
  consecutive : ∀ first middle last, first ≤ middle → middle ≤ last →
    store.Ready (address, first) → store.Ready (address, last) → store.Ready (address, middle)

variable (hasher store) in
/-- All indexes agree with the store, and the limits are kept. -/
structure Agreement : Prop where
  indexed : store.Indexed hasher
  system : store.systemTtlIndex.data.keys.map TTLOrderingKey.pointer ~ store.pointers
  expiration : store.expirationTimeIndex.data.keys.map TTLOrderingKey.pointer ~ store.pointers
  hashes : store.hashIndex.values ~ store.pointers
  split : ∀ address, store.Split address
  capacity : store.pointers.length ≤ store.capacity
  capacityPerUser : ∀ address, (store.numbers address).length ≤ store.capacityPerUser

variable (store) in
/-- The limits of the store are kept. -/
structure Limited : Prop where
  capacity : store.pointers.length ≤ store.capacity
  capacityPerUser : ∀ address, (store.numbers address).length ≤ store.capacityPerUser

/-- Fewer transactions keep the limits. -/
theorem Limited.of_subset (limited : store.Limited)
    (subset : ∀ pointer, after.Stored pointer → store.Stored pointer)
    (capacity : after.capacity = store.capacity)
    (capacityPerUser : after.capacityPerUser = store.capacityPerUser) : after.Limited := by
  refine ⟨?_, ?_⟩
  · rw [capacity]
    exact (length_pointers_le subset).trans limited.capacity
  · intro address
    rw [capacityPerUser]
    exact (length_numbers_le fun number => subset (address, number)).trans
      (limited.capacityPerUser address)

theorem Agreement.of_limited (indexed : store.Indexed hasher)
    (split : ∀ address, store.Split address) (limited : store.Limited) :
    store.Agreement hasher where
  indexed := indexed
  system := indexed.system.perm indexed.keyed
  expiration := indexed.expiration.perm indexed.keyed
  hashes := indexed.hashes_perm
  split := split
  capacity := limited.capacity
  capacityPerUser := limited.capacityPerUser

theorem Agreement.limited (agreement : store.Agreement hasher) : store.Limited :=
  ⟨agreement.capacity, agreement.capacityPerUser⟩

theorem Limited.resorted (limited : store.Limited) (resorted : store.Resorted after) :
    after.Limited :=
  limited.of_subset (fun pointer => (resorted.stored_iff pointer).mp)
    resorted.capacity resorted.capacityPerUser

variable {gone : TxnPointer → Prop} {pointer : TxnPointer} (removes : store.Removal gone after)

section

include removes

theorem Removal.stored_iff (pointer : TxnPointer) :
    after.Stored pointer ↔ store.Stored pointer ∧ ¬ gone pointer := by
  simp only [Stored, removes.lookup_eq_some_iff, exists_and_right]

theorem Removal.stored (stored : after.Stored pointer) : store.Stored pointer :=
  ((removes.stored_iff pointer).mp stored).1

theorem Limited.removal (limited : store.Limited) : after.Limited :=
  limited.of_subset (fun _ => removes.stored) removes.capacity removes.capacityPerUser

/-- A removed transaction makes room in the store and in its account. -/
theorem Removal.length_lt (isGone : gone pointer) (there : store.Stored pointer) :
    after.pointers.length < store.pointers.length ∧
      (after.numbers pointer.1).length < (store.numbers pointer.1).length := by
  have absent : ¬ after.Stored pointer := fun stored => ((removes.stored_iff _).mp stored).2 isGone
  constructor
  · refine length_lt_of_removed pointer (nodup_pointers _) (fun other member => ?_)
      (fun member => absent (mem_pointers.mp member)) (mem_pointers.mpr there)
    exact mem_pointers.mpr (removes.stored (mem_pointers.mp member))
  · refine length_lt_of_removed pointer.2 (nodup_numbers _ _)
      (fun number member => ?_) (fun member => absent (mem_numbers.mp member))
      (mem_numbers.mpr there)
    exact mem_numbers.mpr (removes.stored (mem_numbers.mp member))

theorem Placed.removal (placed : store.Placed address) : after.Placed address := by
  refine .of_behind ?_ ?_
  · intro number stored
    obtain ⟨old, left⟩ := (removes.stored_iff _).mp stored
    rcases placed.some number old with ready | parked
    · exact .inl ((removes.ready _).mpr ⟨ready, left⟩)
    · exact .inr ((removes.parked _).mpr ⟨parked, left⟩)
  · intro first second ready parked
    exact placed.behind first second ((removes.ready _).mp ready).1 ((removes.parked _).mp parked).1

end

section

variable (split : store.Split address)
include split

section

include removes

/-- Nothing is removed between two ready transactions that stay. -/
theorem Split.removal
    (outer : ∀ first middle, first ≤ middle →
      store.Ready (address, middle) → gone (address, middle) → gone (address, first)) :
    after.Split address := by
  refine ⟨split.toPlaced.removal removes, ?_⟩
  intro first middle last lower upper readyFirst readyLast
  obtain ⟨oldFirst, left⟩ := (removes.ready _).mp readyFirst
  obtain ⟨oldLast, -⟩ := (removes.ready _).mp readyLast
  have ready := split.consecutive first middle last lower upper oldFirst oldLast
  refine (removes.ready _).mpr ⟨ready, fun isGone => ?_⟩
  exact left (outer first middle lower ready isGone)

theorem Split.evicted (parked : ∀ pointer, gone pointer → store.Parked pointer) :
    after.Split address := by
  refine split.removal removes fun _ middle _ ready isGone => ?_
  exact absurd (parked _ isGone) (split.one middle ready)

end

variable {account : AccountAddress} {sequenceNumber : Nat}

theorem Split.cleaned
    (removal :
      store.Removal (fun pointer => pointer.1 = account ∧ pointer.2 < sequenceNumber) after) :
    after.Split address := by
  refine split.removal removal ?_
  rintro first middle lower - ⟨same, early⟩
  exact ⟨same, lt_of_le_of_lt lower early⟩

/-- Parking what comes behind an expired transaction keeps the split. -/
theorem Split.expiry {keys : List TTLOrderingKey} (expiry : store.Expiry keys after) :
    after.Split address := by
  refine ⟨.of_behind ?_ ?_, ?_⟩
  · rintro number ⟨txn, found⟩
    obtain ⟨old, alive⟩ := (expiry.lookup _ _).mp found
    by_cases before : ∀ key ∈ keys, key.address = address → number < key.sequenceNumber
    · rcases split.some number ⟨txn, old⟩ with ready | parked
      · exact .inl ((expiry.ready _).mpr ⟨ready, before⟩)
      · exact .inr ((expiry.parked _).mpr ⟨.inl parked, alive⟩)
    · push Not at before
      obtain ⟨key, member, same, le⟩ := before
      have less : key.sequenceNumber < number := by
        refine lt_of_le_of_ne le fun equal => alive key member ?_
        exact ext same equal
      exact .inr ((expiry.parked _).mpr ⟨.inr ⟨⟨txn, old⟩, key, member, same, less⟩, alive⟩)
  · intro first second ready parked
    obtain ⟨old, before⟩ := (expiry.ready _).mp ready
    rcases ((expiry.parked _).mp parked).1 with
      wasParked | ⟨-, key, member, same, less⟩
    · exact split.behind first second old wasParked
    · exact (before key member same).trans less
  · intro first middle last lower upper readyFirst readyLast
    obtain ⟨oldFirst, -⟩ := (expiry.ready _).mp readyFirst
    obtain ⟨oldLast, before⟩ := (expiry.ready _).mp readyLast
    refine (expiry.ready _).mpr
      ⟨split.consecutive first middle last lower upper oldFirst oldLast, ?_⟩
    intro key member same
    exact lt_of_le_of_lt upper (before key member same)

end

/-!
## Finding the ready transactions
-/

variable (store address) in
/-- No transaction in the queue lies behind a gap, counted from a number on. -/
def NoGap (sequenceNumber : Nat) (added : Nat → Prop) : Prop :=
  ∀ ready, store.Ready (address, ready) → ∀ number,
    sequenceNumber ≤ number → number ≤ ready → store.Stored (address, number) ∨ added number

theorem NoGap.removal {added : Nat → Prop} (noGap : store.NoGap address sequenceNumber added)
    (removal : store.Removal gone after)
    (safe : ∀ ready number, store.Ready (address, ready) → sequenceNumber ≤ number →
      number ≤ ready → gone (address, number) → added number) :
    after.NoGap address sequenceNumber added := by
  intro ready isReady number lower upper
  have old := ((removal.ready _).mp isReady).1
  by_cases isGone : gone (address, number)
  · exact .inr (safe ready number old lower upper isGone)
  · rcases noGap ready old number lower upper with stored | new
    · exact .inl ((removal.stored_iff _).mpr ⟨stored, isGone⟩)
    · exact .inr new

variable (store address) in
/-- What an account has to satisfy before its ready transactions are found. -/
structure Sortable (sequenceNumber : Nat) : Prop where
  hasNext : store.HasNext address
  late : ∀ number, store.Stored (address, number) → sequenceNumber ≤ number
  noGap : store.NoGap address sequenceNumber fun _ => False
  some : ∀ number, store.Stored (address, number) →
    store.Ready (address, number) ∨ store.Parked (address, number) ∨ store.Waiting (address, number)

/-- The number from which on transactions are parked. -/
theorem Sorting.split {stop : Nat} (indexed : before.Indexed hasher)
    (sortable : before.Sortable address sequenceNumber)
    (stored : ∀ number, sequenceNumber ≤ number → number < stop → before.Stored (address, number))
    (absent : ¬ before.Stored (address, stop)) (order : sequenceNumber ≤ stop)
    (sorting :
      before.Sorting address (fun number => sequenceNumber ≤ number ∧ number < stop) stop after) :
    after.Split address := by
  have early :
      ∀ number, before.Ready (address, number) → sequenceNumber ≤ number ∧ number < stop := by
    intro number ready
    refine ⟨sortable.late number (indexed.stored_of_ready ready), ?_⟩
    by_contra late
    rcases sortable.noGap number ready stop order (not_lt.mp late) with
      there | nothing
    · exact absent there
    · exact nothing
  have ready :
      ∀ number, after.Ready (address, number) ↔ sequenceNumber ≤ number ∧ number < stop := by
    intro number
    rw [sorting.ready]
    constructor
    · rintro (old | ⟨-, inside, -⟩)
      · exact early number old
      · exact inside
    · intro inside
      exact .inr ⟨rfl, inside, stored number inside.1 inside.2⟩
  have parked : ∀ number, after.Parked (address, number) → stop < number := by
    intro number isParked
    rcases (sorting.parked _).mp isParked with ⟨old, outside⟩ | ⟨-, larger, -⟩
    · have isStored := indexed.parked _ old
      have late := sortable.late number isStored
      have different : number ≠ stop := by
        rintro rfl
        exact absent isStored
      have notInside : ¬ (sequenceNumber ≤ number ∧ number < stop) :=
        fun inside => outside ⟨rfl, inside⟩
      omega
    · exact larger
  refine ⟨.of_behind ?_ ?_, ?_⟩
  · intro number isStored
    have old := (sorting.resorted.stored_iff _).mp isStored
    have late := sortable.late number old
    by_cases inside : sequenceNumber ≤ number ∧ number < stop
    · exact .inl ((ready number).mpr inside)
    · right
      have outside : ¬ ((address, number).1 = address ∧
            (sequenceNumber ≤ (address, number).2 ∧ (address, number).2 < stop)) :=
        fun both => inside both.2
      rcases sortable.some number old with wasReady | wasParked | waiting
      · exact absurd (early number wasReady) inside
      · exact (sorting.parked _).mpr (.inl ⟨wasParked, outside⟩)
      · refine (sorting.parked _).mpr (.inr ⟨rfl, ?_, ?_⟩)
        · have different : number ≠ stop := by
            rintro rfl
            exact absent old
          omega
        · obtain ⟨txn, found, notReady⟩ := waiting
          exact ⟨txn, (sorting.untouched _ outside).trans found, notReady⟩
  · intro first second isReady isParked
    have small := ((ready first).mp isReady).2
    have large := parked second isParked
    omega
  · intro first middle last lower upper readyFirst readyLast
    have small := (ready first).mp readyFirst
    have large := (ready last).mp readyLast
    exact (ready middle).mpr (by omega)

/-- The split depends on what is stored, ready and parked for the account. -/
theorem Split.congr (split : before.Split address)
    (stored : ∀ number, after.Stored (address, number) ↔ before.Stored (address, number))
    (ready : ∀ number, after.Ready (address, number) ↔ before.Ready (address, number))
    (parked : ∀ number, after.Parked (address, number) ↔ before.Parked (address, number)) :
    after.Split address := by
  refine ⟨.of_behind ?_ ?_, ?_⟩
  · intro number isStored
    rw [ready, parked]
    exact split.some number ((stored number).mp isStored)
  · intro first second
    rw [ready, parked]
    exact split.behind first second
  · intro first middle last
    rw [ready, ready, ready]
    exact split.consecutive first middle last

theorem Sorting.split_of_ne {promoted : Nat → Prop} {minSeq : Nat}
    (sorting : before.Sorting address promoted minSeq after) (different : account ≠ address)
    (split : before.Split account) : after.Split account := by
  refine split.congr (fun number => sorting.resorted.stored_iff _) ?_ ?_
  · intro number
    rw [sorting.ready]
    simp [different]
  · intro number
    rw [sorting.parked]
    simp [different]

/-- After the ready transactions were found all accounts are split. -/
theorem Indexed.split_processReady (indexed : store.Indexed hasher)
    (sortable : store.Sortable address sequenceNumber)
    (others : ∀ account, account ≠ address → store.Split account)
    (found : store.transactions.get? address = some txns) :
    ∀ account,
      (store.processReadyTransactions address (.sequential sequenceNumber)).Split account := by
  obtain ⟨stop, order, stored, absent, sorting⟩ :=
    indexed.processReady_sequential found sortable.hasNext sequenceNumber
  intro account
  by_cases same : account = address
  · rw [same]
    exact sorting.split indexed sortable stored absent order
  · exact sorting.split_of_ne same (others account same)

/-- A commit keeps the agreement if no ready transaction lies behind a gap. -/
theorem Agreement.commitTransaction (agreement : store.Agreement hasher)
    (hasNext : store.HasNext account) (noGap : store.NoGap account sequenceNumber fun _ => False) :
    (commitTransaction hasher store account (.sequential sequenceNumber)).Agreement hasher := by
  obtain ⟨indexed, removal, -⟩ :=
    agreement.indexed.cleanCommittedTransactions account sequenceNumber
  change (processReadyTransactions (cleanCommittedTransactions hasher store
    account sequenceNumber) _ _).Agreement hasher
  generalize cleanCommittedTransactions hasher store account sequenceNumber = cleaned at *
  obtain ⟨left, resorted⟩ := indexed.processReadyTransactions account (.sequential sequenceNumber)
  have split : ∀ address, cleaned.Split address :=
    fun address => (agreement.split address).cleaned removal
  refine .of_limited left ?_ ((agreement.limited.removal removal).resorted resorted)
  cases found : cleaned.transactions.get? account with
  | none =>
    rw [TransactionStore.processReadyTransactions, found]
    exact split
  | some txns =>
    have sortable : cleaned.Sortable account sequenceNumber := by
      refine ⟨fun number stored => hasNext number (removal.stored stored), ?_, ?_, ?_⟩
      · intro number stored
        have notGone := ((removal.stored_iff _).mp stored).2
        exact not_lt.mp fun early => notGone ⟨rfl, early⟩
      · refine noGap.removal removal ?_
        rintro ready number - late - ⟨-, early⟩
        exact absurd late (not_le.mpr early)
      · intro number stored
        rcases (split account).some number stored with ready | parked
        · exact .inl ready
        · exact .inr (.inl parked)
    exact indexed.split_processReady sortable (fun address _ => split address) found

/-!
## Submissions
-/

variable {txn : MempoolTransaction Data}

/-- A submission keeps the limits. -/
theorem Outcome.limited (outcome : Outcome hasher store txn after) (limited : store.Limited) :
    after.Limited := by
  cases outcome with
  | full _ removal => exact limited.removal removal
  | tooMany _ removal cleaning => exact (limited.removal removal).removal cleaning
  | @accepted _ evicted cleaned added _ _ removal evictedIndexed room cleaning _ found
      size free addition indexed =>
    have stored := addition.stored_iff free
    have limits := (limited.removal removal).removal cleaning
    suffices added.Limited from this.resorted (indexed.processReadyTransactions _ _).2
    refine ⟨?_, fun address => ?_⟩
    · have grown := length_le_succ txn.pointer added.nodup_pointers
        fun pointer member =>
          ((stored pointer).mp (mem_pointers.mp member)).imp_right mem_pointers.mpr
      have fewer := length_pointers_le fun _ => cleaning.stored
      rw [evictedIndexed.size_eq] at room
      rw [addition.capacity, cleaning.capacity]
      omega
    · rw [addition.capacityPerUser]
      by_cases same : address = txn.txn.sender
      · have grown :=
          length_le_succ txn.pointer.2 (added.nodup_numbers address)
            fun number member =>
              ((stored _).mp (mem_numbers.mp member)).imp (congrArg snd) mem_numbers.mpr
        rw [same, length_numbers found] at grown
        rw [same]
        omega
      · refine le_trans (length_numbers_le fun number there => ?_) (limits.capacityPerUser address)
        rcases (stored _).mp there with isNew | old
        · exact absurd (congrArg fst isNew) same
        · exact old

variable (isSequential : txn.sequenceInfo.accountSequenceNumberType = .sequential sequenceNumber)
  (late : sequenceNumber ≤ txn.pointer.2)
  (notReady : ∀ timelineId, txn.timelineState ≠ .ready timelineId)
  (hasNext : store.HasNext txn.txn.sender) (ownNext : txn.pointer.2 + 1 < 2 ^ 64)
  (noGap : store.NoGap txn.txn.sender sequenceNumber (· = txn.pointer.2))
include isSequential late notReady hasNext ownNext noGap

/-- A submission keeps the agreement if no ready transaction lies behind a gap. -/
theorem Outcome.agreement (outcome : Outcome hasher store txn after) (limited : store.Limited)
    (placed : store.Placed txn.txn.sender)
    (others : ∀ account, account ≠ txn.txn.sender → store.Split account)
    (split : store.Split txn.txn.sender ∨
      store.pointers.length < store.capacity ∧
        (store.numbers txn.txn.sender).length < store.capacityPerUser) :
    after.Agreement hasher := by
  have limits := outcome.limited limited
  have whole : store.Split txn.txn.sender → ∀ account, store.Split account := by
    intro own account
    by_cases same : account = txn.txn.sender
    · rw [same]
      exact own
    · exact others account same
  cases outcome with
  | full parked removal indexed size =>
    rcases split with own | ⟨room, -⟩
    · exact .of_limited indexed (fun account => (whole own account).evicted removal parked) limits
    · have fewer := length_pointers_le fun _ => removal.stored
      rw [indexed.size_eq, removal.capacity] at size
      omega
  | @tooMany gone evicted _ txns parked removal cleaning indexed found size =>
    have perUser : after.capacityPerUser = store.capacityPerUser :=
      cleaning.capacityPerUser.trans removal.capacityPerUser
    rcases split with own | ⟨-, room⟩
    · exact .of_limited indexed
        (fun account => ((whole own account).evicted removal parked).cleaned cleaning)
        limits
    · have fewer : (after.numbers txn.txn.sender).length ≤ (store.numbers txn.txn.sender).length :=
        length_numbers_le fun _ stored => removal.stored (cleaning.stored stored)
      rw [length_numbers found] at fewer
      omega
  | @accepted gone evicted cleaned added txns parked removal evictedIndexed room
      cleaning cleanedIndexed found size free addition indexed =>
      rw [isSequential] at limits ⊢
      rw [MempoolTransaction.minSeq, isSequential] at cleaning
      have stored := addition.stored_iff free
      obtain ⟨left, -⟩ :=
        indexed.processReadyTransactions txn.txn.sender (.sequential sequenceNumber)
      have cleanedPlaced : cleaned.Placed txn.txn.sender :=
        (placed.removal removal).removal cleaning
      have sortable : added.Sortable txn.txn.sender sequenceNumber := by
        refine ⟨?_, ?_, ?_, ?_⟩
        · intro number there
          rcases (stored _).mp there with isNew | old
          · have same : number = txn.pointer.2 := congrArg snd isNew
            rw [same]
            exact ownNext
          · exact hasNext number (removal.stored (cleaning.stored old))
        · intro number there
          rcases (stored _).mp there with isNew | old
          · have same : number = txn.pointer.2 := congrArg snd isNew
            rw [same]
            exact late
          · have notGone := ((cleaning.stored_iff _).mp old).2
            exact not_lt.mp fun early => notGone ⟨rfl, early⟩
        · have afterEviction :=
            noGap.removal removal fun ready number isReady _ upper isGone =>
              absurd upper (not_le.mpr (placed.behind ready number isReady (parked _ isGone)))
          have afterCleaning := afterEviction.removal cleaning fun _ number _ lower _ isGone =>
            absurd lower (not_le.mpr isGone.2)
          intro ready isReady number lower upper
          left
          rw [stored]
          rcases afterCleaning ready ((addition.ready _).mp isReady) number
            lower upper with old | isNew
          · exact .inr old
          · exact .inl (ext rfl isNew)
        · intro number there
          rw [addition.ready, addition.parked]
          rcases (stored _).mp there with isNew | old
          · rw [isNew]
            exact .inr (.inr ⟨txn, addition.own, notReady⟩)
          · rcases cleanedPlaced.some number old with ready | isParked
            · exact .inl ready
            · exact .inr (.inl isParked)
      have addedSplit : ∀ account, account ≠ txn.txn.sender → added.Split account := by
        intro account different
        have cleanedSplit : cleaned.Split account :=
          ((others account different).evicted removal parked).cleaned cleaning
        refine cleanedSplit.congr ?_ (fun _ => addition.ready _) (fun _ => addition.parked _)
        intro number
        rw [stored]
        refine or_iff_right fun isNew => ?_
        exact different (congrArg fst isNew)
      have account := addition.own
      rw [lookup_eq] at account
      obtain ⟨newTxns, newFound, -⟩ := Option.bind_eq_some_iff.mp account
      exact .of_limited left (indexed.split_processReady sortable addedSplit newFound) limits

/-- Inserting a transaction, which may raise a gas price. -/
theorem Agreement.insert [DecidableEq Data]
    (agreement : store.Agreement hasher) (choice : Nat) (atPointer : txn.At txn.pointer) :
    (insert hasher choice store txn).2.Agreement hasher := by
  rw [TransactionStore.insert]
  split
  · rename_i currentVersion current
    split
    · exact agreement
    · split
      · obtain ⟨indexed, removal, -⟩ := agreement.indexed.removeTxn txn.pointer
        have there : store.Stored txn.pointer := ⟨currentVersion, current⟩
        obtain ⟨fewer, fewerOwn⟩ := removal.length_lt rfl there
        refine (indexed.insertNew choice atPointer
          (removal.lost _ rfl)).agreement isSequential late notReady
          (fun number there => hasNext number (removal.stored there)) ownNext ?_
          (agreement.limited.removal removal)
          ((agreement.split _).toPlaced.removal removal) ?_ (.inr ⟨?_, ?_⟩)
        · refine noGap.removal removal ?_
          intro _ number _ _ _ isGone
          exact congrArg snd isGone
        · intro account different
          refine (agreement.split account).removal removal ?_
          intro first middle _ _ isGone
          exact absurd (congrArg fst isGone) different
        · rw [removal.capacity]
          exact fewer.trans_le agreement.capacity
        · rw [removal.capacityPerUser]
          exact fewerOwn.trans_le (agreement.capacityPerUser txn.txn.sender)
      · exact agreement
  · rename_i free
    exact (agreement.indexed.insertNew choice atPointer free).agreement
      isSequential late notReady hasNext ownNext noGap agreement.limited
      (agreement.split _).toPlaced (fun account _ => agreement.split account)
      (.inl (agreement.split _))

end TransactionStore

end Agreement

end Diem.CoreMempool
