import Diem.MempoolRemoval

namespace Diem.CoreMempool

open PriorityIndex (makeKey makeKey_congr pointer_makeKey)
open OrderedMap MempoolTransaction List

/-!
# Ready and parked transactions

Which transactions of an account the store promotes, and which ones it parks.
-/

section Promotions

variable {Data Hash : Type} [LinearOrder Hash]
  {first second : MempoolTransaction Data}

theorem MempoolTransaction.txn_congr (same : first.core = second.core) :
    first.txn = second.txn := by
  change first.core.txn = second.core.txn
  rw [same]

namespace TransactionStore

namespace Promotion

/-- The parts of a promotion belong together. -/
structure Sound (address : AccountAddress) (promotion : Promotion Data) : Prop where
  keyed : ∀ number txn, promotion.txns.get? number = some txn → txn.At (address, number)
  queued : ∀ key ∈ promotion.priorityIndex, key.address = address →
    ∃ txn, promotion.txns.get? key.pointer.2 = some txn ∧ PriorityIndex.makeKey txn = key
  parking : promotion.parkingLotIndex.WellFormed

/-- Some transactions of an account are moved from the parking lot into the queue. -/
structure Promotes (address : AccountAddress) (before : Promotion Data) (promoted : Nat → Prop)
    (after : Promotion Data) : Prop where
  txns : ∀ number, (after.txns.get? number).map core = (before.txns.get? number).map core
  untouched : ∀ number, ¬ promoted number → after.txns.get? number = before.txns.get? number
  queue : ∀ key, key ∈ after.priorityIndex ↔ key ∈ before.priorityIndex ∨
    ∃ number txn,
      promoted number ∧ before.txns.get? number = some txn ∧ PriorityIndex.makeKey txn = key
  parking : after.parkingLotIndex.WellFormed
  parked : ∀ account number, after.parkingLotIndex.contains account number = true ↔
    before.parkingLotIndex.contains account number = true ∧ ¬ (account = address ∧ promoted number)

variable {promoted : Nat → Prop} {address : AccountAddress}

variable {txn : MempoolTransaction Data}

section Core

variable {first second : Option (MempoolTransaction Data)}
  (same : first.map core = second.map core)
include same

theorem exists_of_core (found : first = some txn) :
    ∃ other, second = some other ∧ other.core = txn.core := by
  rw [found] at same
  exact Option.map_eq_some_iff.mp same.symm

/-- What does not depend on the place in the log. -/
theorem exists_iff_of_core {condition : MempoolTransaction Data → Prop}
    (congr : ∀ first second : MempoolTransaction Data,
      first.core = second.core → condition first → condition second) :
    (∃ txn, first = some txn ∧ condition txn) ↔ ∃ txn, second = some txn ∧ condition txn := by
  constructor
  · rintro ⟨txn, found, holds⟩
    obtain ⟨other, otherFound, equal⟩ := exists_of_core same found
    exact ⟨other, otherFound, congr txn other equal.symm holds⟩
  · rintro ⟨txn, found, holds⟩
    obtain ⟨other, otherFound, equal⟩ := exists_of_core same.symm found
    exact ⟨other, otherFound, congr txn other equal.symm holds⟩

theorem exists_makeKey_iff (key : OrderedQueueKey) :
    (∃ txn, first = some txn ∧ makeKey txn = key) ↔ ∃ txn, second = some txn ∧ makeKey txn = key :=
  exists_iff_of_core same fun _ _ equal own => (makeKey_congr equal).symm.trans own

end Core

variable {before middle after : Promotion Data}

theorem Promotes.refl (sound : before.Sound address) (none : ∀ number, ¬ promoted number) :
    before.Promotes address promoted before where
  txns := fun _ => rfl
  untouched := fun _ _ => rfl
  queue := by simp [none]
  parking := sound.parking
  parked := by simp [none]

theorem Promotes.sound (promotes : before.Promotes address promoted after)
    (sound : before.Sound address) : after.Sound address := by
  refine ⟨?_, ?_, promotes.parking⟩
  · intro number txn found
    obtain ⟨other, otherFound, same⟩ := exists_of_core (promotes.txns number) found
    exact (sound.keyed number other otherFound).congr same
  · intro key member own
    rw [exists_makeKey_iff (promotes.txns _)]
    rcases (promotes.queue key).mp member with
      inBefore | ⟨number, txn, -, found, rfl⟩
    · exact sound.queued key inBefore own
    · have atNumber := sound.keyed number txn found
      refine ⟨txn, ?_, rfl⟩
      rw [pointer_makeKey, atNumber.pointer_eq]
      exact found

variable {first second : Nat → Prop}

theorem Promotes.trans (earlier : before.Promotes address first middle)
    (later : middle.Promotes address second after) :
    before.Promotes address (fun number => first number ∨ second number) after where
  txns := fun number => (later.txns number).trans (earlier.txns number)
  untouched := by
    intro number neither
    rw [not_or] at neither
    rw [later.untouched number neither.2, earlier.untouched number neither.1]
  queue := by
    intro key
    rw [later.queue, earlier.queue, or_assoc]
    simp only [exists_and_left, exists_makeKey_iff (earlier.txns _), or_and_right, exists_or]
  parking := later.parking
  parked := by
    intro account number
    rw [later.parked, earlier.parked, and_assoc, ← not_or, and_or_left]

theorem Promotes.congr (promotes : before.Promotes address first after)
    (same : ∀ number, first number ↔ second number) : before.Promotes address second after := by
  have equal : first = second := funext fun number => propext (same number)
  rw [← equal]
  exact promotes

/-- The transaction as it is stored after its promotion. -/
theorem core_promote (promotion : Promotion Data) (number : Nat) (txn : MempoolTransaction Data) :
    ∃ updated, updated.core = txn.core ∧
      (promotion.promote number txn).txns = promotion.txns.insert number updated ∧
      (promotion.promote number txn).priorityIndex = promotion.priorityIndex.insert (makeKey txn) ∧
      (promotion.promote number txn).parkingLotIndex =
        promotion.parkingLotIndex.remove updated := by
  rw [promote]
  by_cases notReady : txn.timelineState = .notReady
  · rw [if_pos notReady]
    exact ⟨(promotion.timelineIndex.insert txn).2, rfl, rfl, rfl, rfl⟩
  · rw [if_neg notReady]
    exact ⟨txn, rfl, rfl, rfl, rfl⟩

theorem Sound.promote (sound : before.Sound address) {number : Nat}
    (found : before.txns.get? number = some txn) :
    before.Promotes address (· = number) (before.promote number txn) := by
  have atNumber := sound.keyed number txn found
  obtain ⟨updated, core, txns, queue, parking⟩ := core_promote before number txn
  obtain ⟨valid, parked⟩ := sound.parking.remove (atNumber.congr core.symm)
  refine ⟨?_, ?_, ?_, ?_, ?_⟩
  · intro other
    rw [txns, get?_insert]
    split
    · rename_i same
      rw [← same, found, Option.map_some, Option.map_some, core]
    · rfl
  · intro other different
    rw [txns, get?_insert, if_neg (Ne.symm different)]
  · intro key
    have alone :
        ∀ other ∈ before.priorityIndex, other.rank = (makeKey txn).rank → other = makeKey txn := by
      intro other member sameRank
      have pointers := OrderedQueueKey.pointer_eq_of_rank_eq sameRank
      rw [pointer_makeKey, atNumber.pointer_eq] at pointers
      obtain ⟨stored, storedFound, storedKey⟩ :=
        sound.queued other member (congrArg Prod.fst pointers)
      rw [pointers, found] at storedFound
      cases storedFound
      exact storedKey.symm
    rw [queue, RankedSet.mem_insert alone, or_comm]
    refine or_congr_right ⟨?_, ?_⟩
    · rintro rfl
      exact ⟨number, txn, rfl, found, rfl⟩
    · rintro ⟨other, otherTxn, rfl, otherFound, same⟩
      rw [found] at otherFound
      cases otherFound
      exact same.symm
  · rw [parking]
    exact valid
  · intro account other
    rw [parking, parked, and_comm, ne_eq, Prod.mk.injEq]

/-- Without the last 64-bit number the numbers that are promoted do not wrap. -/
theorem Sound.promoteRun (sound : before.Sound address)
    (hasNext : ∀ number txn, before.txns.get? number = some txn → number + 1 < 2 ^ 64)
    (steps start : Nat) :
    ∃ stop, (Promotion.promoteRun steps before start).2 = stop ∧ start ≤ stop ∧
      before.Promotes address (fun number => start ≤ number ∧ number < stop)
        (Promotion.promoteRun steps before start).1 ∧
      (∀ number, start ≤ number → number < stop → ∃ txn, before.txns.get? number = some txn) ∧
      (stop = start + steps ∨ before.txns.get? stop = none) := by
  induction steps generalizing before start with
  | zero => refine ⟨start, rfl, le_rfl, .refl sound ?_, ?_, .inl rfl⟩ <;> omega
  | succ steps ih =>
    rw [Promotion.promoteRun]
    cases found : before.txns.get? start with
    | none => refine ⟨start, rfl, le_rfl, .refl sound ?_, ?_, .inr found⟩ <;> omega
    | some txn =>
      have first := sound.promote found
      rw [Word64.wrap_eq_self (hasNext start txn found)]
      obtain ⟨stop, ends, order, later, stored, last⟩ := ih (first.sound sound) (by
        intro number other otherFound
        obtain ⟨original, originalFound, -⟩ := exists_of_core (first.txns number) otherFound
        exact hasNext number original originalFound) (start + 1)
      refine ⟨stop, ends, by omega, (first.trans later).congr ?_, ?_, ?_⟩
      · intro number
        omega
      · intro number lower upper
        by_cases same : number = start
        · rw [same]
          exact ⟨txn, found⟩
        · obtain ⟨other, otherFound⟩ := stored number (by omega) upper
          obtain ⟨original, originalFound, -⟩ := exists_of_core (first.txns number) otherFound
          exact ⟨original, originalFound⟩
      · rcases last with atEnd | absent
        · left
          omega
        · right
          have same := first.txns stop
          rw [absent, Option.map_none] at same
          exact Option.map_eq_none_iff.mp same.symm

theorem le_size_of_stored {txns : AccountTransactions Data} {start count : Nat}
    (stored :
      ∀ number, start ≤ number → number < start + count → ∃ txn, txns.get? number = some txn) :
    count ≤ txns.size := by
  have subset : range' start count ⊆ txns.keys := by
    intro number member
    obtain ⟨lower, upper⟩ := mem_range'_1.mp member
    exact mem_keys_iff.mpr (stored number lower upper)
  have length := (subperm_of_subset nodup_range' subset).length_le
  rwa [length_range', length_keys] at length

/-- What every promotion of a transaction keeps, the whole step keeps. -/
theorem promoteReady_induction {motive : Promotion Data → Prop} (start : motive before)
    (step : ∀ promotion number txn, promotion.txns.get? number = some txn → motive promotion →
      motive (promotion.promote number txn))
    (crsnOrSeqno : AccountSequenceInfo) :
    motive (before.promoteReady crsnOrSeqno).1 := by
  cases crsnOrSeqno with
  | sequential sequenceNumber =>
    rw [Promotion.promoteReady]
    generalize before.txns.size = steps
    induction steps generalizing before sequenceNumber with
    | zero => exact start
    | succ steps ih =>
      rw [Promotion.promoteRun]
      cases found : before.txns.get? sequenceNumber with
      | none => exact start
      | some txn => exact ih (step _ _ _ found start) _
  | crsn minNonce size =>
    rw [Promotion.promoteReady]
    refine foldlRecOn (motive := fun state : _ × Nat => motive state.1) _ _ start ?_
    intro state holds nonce _
    rw [promoteNonce]
    cases found : state.1.txns.get? nonce with
    | none => exact holds
    | some txn => exact step _ _ _ found holds

/-- Whatever the kind of account, some transactions are promoted. -/
theorem Sound.promoteReady (sound : before.Sound address) (crsnOrSeqno : AccountSequenceInfo) :
    ∃ promoted : Nat → Prop,
      before.Promotes address promoted (before.promoteReady crsnOrSeqno).1 := by
  refine promoteReady_induction
    (motive := fun promotion => ∃ promoted, before.Promotes address promoted promotion)
    ⟨_, .refl sound fun _ => id⟩ ?_ crsnOrSeqno
  rintro promotion number txn found ⟨promoted, promotes⟩
  exact ⟨_, promotes.trans ((promotes.sound sound).promote found)⟩

theorem foldl_park {index : ParkingLotIndex} (valid : index.WellFormed)
    (txns : List (MempoolTransaction Data)) (keyed : ∀ txn ∈ txns, txn.At txn.pointer) :
    (txns.foldl park index).WellFormed ∧
      ∀ account number, (txns.foldl park index).contains account number = true ↔
        index.contains account number = true ∨
          ∃ txn ∈ txns, txn.pointer = (account, number) ∧
            ∀ timelineId, txn.timelineState ≠ .ready timelineId := by
  induction txns generalizing index with
  | nil => exact ⟨valid, by simp⟩
  | cons txn txns ih =>
    have keyedRest : ∀ other ∈ txns, other.At other.pointer :=
      fun other member => keyed other (mem_cons_of_mem _ member)
    rw [foldl_cons]
    cases state : txn.timelineState with
    | ready timelineId =>
      have same : park index txn = index := by rw [Promotion.park, state]
      rw [same]
      obtain ⟨result, contained⟩ := ih valid keyedRest
      refine ⟨result, fun account number => ?_⟩
      rw [contained, exists_mem_cons_iff]
      refine or_congr_right (or_iff_right ?_).symm
      rintro ⟨-, notReady⟩
      exact notReady timelineId state
    | notReady | nonQualified =>
      have next : park index txn = index.insert txn := by rw [Promotion.park, state]
      obtain ⟨inserted, insertedIff⟩ := valid.insert (keyed txn mem_cons_self)
      rw [next]
      obtain ⟨result, contained⟩ := ih inserted keyedRest
      refine ⟨result, fun account number => ?_⟩
      rw [contained, insertedIff, exists_mem_cons_iff, or_assoc, or_left_comm]
      refine or_congr_right (or_congr_left ?_)
      rw [state]
      exact ⟨fun same => ⟨same.symm, nofun⟩, fun both => both.1.symm⟩

/-- The transactions behind a number are parked, unless they are marked as ready. -/
theorem Sound.parkBehind (sound : before.Sound address) (minSeq : Nat) :
    (before.parkBehind minSeq).parkingLotIndex.WellFormed ∧
      ∀ account number, (before.parkBehind minSeq).parkingLotIndex.contains account number = true ↔
        before.parkingLotIndex.contains account number = true ∨
          account = address ∧ minSeq < number ∧ ∃ txn, before.txns.get? number = some txn ∧
            ∀ timelineId, txn.timelineState ≠ .ready timelineId := by
  have behind : ∀ txn, txn ∈ (before.txns.filter fun entry => minSeq < entry.1).values ↔
    ∃ number, before.txns.get? number = some txn ∧ minSeq < number := by
    intro txn
    simp only [mem_values_iff, get?_filter_eq_some_iff, decide_eq_true_iff]
  obtain ⟨parking, parkedIff⟩ := foldl_park sound.parking
    (before.txns.filter fun entry => minSeq < entry.1).values (by
      intro txn member
      obtain ⟨number, there, -⟩ := (behind txn).mp member
      have atNumber := sound.keyed number txn there
      rwa [atNumber.pointer_eq])
  refine ⟨parking, fun account number => (parkedIff account number).trans ?_⟩
  refine or_congr_right ⟨?_, ?_⟩
  · rintro ⟨txn, member, pointer, notReady⟩
    obtain ⟨other, there, larger⟩ := (behind txn).mp member
    rw [(sound.keyed other txn there).pointer_eq] at pointer
    cases pointer
    exact ⟨rfl, larger, txn, there, notReady⟩
  · rintro ⟨rfl, larger, txn, there, notReady⟩
    exact ⟨txn, (behind txn).mpr ⟨number, there, larger⟩,
      (sound.keyed number txn there).pointer_eq, notReady⟩

end Promotion

/-!
## The store after a promotion
-/

variable {store : TransactionStore Data Hash}
  {hasher : CommittedHash Data Hash}
  {pendingSystem pendingExpiration : TxnPointer → Prop}

/-- Only the places in the log, the queue and the parking lot change. -/
structure Resorted (before after : TransactionStore Data Hash) : Prop where
  lookups : ∀ pointer, (after.lookup pointer).map core = (before.lookup pointer).map core
  system : after.systemTtlIndex = before.systemTtlIndex
  expiration : after.expirationTimeIndex = before.expirationTimeIndex
  hashes : after.hashIndex = before.hashIndex
  capacity : after.capacity = before.capacity
  capacityPerUser : after.capacityPerUser = before.capacityPerUser

variable {before after : TransactionStore Data Hash}

theorem Resorted.found (resorted : before.Resorted after) {pointer : TxnPointer}
    {txn : MempoolTransaction Data} (found : after.lookup pointer = some txn) :
    ∃ other, before.lookup pointer = some other ∧ other.core = txn.core :=
  Promotion.exists_of_core (resorted.lookups pointer) found

theorem Resorted.stored_iff (resorted : before.Resorted after) (pointer : TxnPointer) :
    after.Stored pointer ↔ before.Stored pointer := by
  have same := congrArg Option.isSome (resorted.lookups pointer)
  rw [Option.isSome_map, Option.isSome_map] at same
  rw [Stored, Stored, ← Option.isSome_iff_exists, ← Option.isSome_iff_exists, same]

theorem RefersTo.resorted (resorted : before.Resorted after) {index : TTLIndex Data}
    {pending : TxnPointer → Prop}
    (times : ∀ first second : MempoolTransaction Data,
      first.core = second.core → index.getExpirationTime first = index.getExpirationTime second)
    (refers : before.RefersTo index pending) :
    after.RefersTo index pending := by
  intro key
  rw [refers key]
  refine (Promotion.exists_iff_of_core (resorted.lookups _) ?_).symm
  rintro first second same ⟨own, notPending⟩
  refine ⟨?_, notPending⟩
  have sameTime := times first second same
  cases first
  cases second
  cases same
  rw [← own, TTLIndex.makeKey, TTLIndex.makeKey, sameTime]

/-- The other indexes stay in step. -/
theorem Indexed.resorted (indexed : before.Indexed hasher pendingSystem pendingExpiration)
    (resorted : before.Resorted after)
    (queued :
      ∀ key ∈ after.priorityIndex, ∃ txn, before.lookup key.pointer = some txn ∧ makeKey txn = key)
    (parking : after.parkingLotIndex.WellFormed)
    (parked : ∀ pointer, after.Parked pointer → before.Stored pointer) :
    after.Indexed hasher pendingSystem pendingExpiration := by
  refine ⟨?_, ?_, ?_, ?_, ?_, ?_, ?_, parking, ?_⟩
  · intro pointer txn found
    obtain ⟨other, otherFound, same⟩ := resorted.found found
    exact (indexed.keyed pointer other otherFound).congr same
  · rw [resorted.system]
    exact indexed.systemTime
  · rw [resorted.expiration]
    exact indexed.clientTime
  · rw [resorted.system]
    refine indexed.system.resorted resorted fun first second same => ?_
    rw [indexed.systemTime, indexed.systemTime]
    have times := congrArg expirationTime same
    exact times
  · rw [resorted.expiration]
    refine indexed.expiration.resorted resorted fun first second same => ?_
    rw [indexed.clientTime, indexed.clientTime, txn_congr same]
  · intro hash pointer
    rw [resorted.hashes, indexed.hashes]
    refine (Promotion.exists_iff_of_core (resorted.lookups pointer) ?_).symm
    intro first second same own
    rw [← own, txn_congr same]
  · intro key member
    rw [Promotion.exists_makeKey_iff (resorted.lookups _)]
    exact queued key member
  · intro pointer isParked
    exact (resorted.stored_iff pointer).mpr (parked pointer isParked)

variable (store) in
/-- The transaction is stored without being marked as ready. -/
def Waiting (pointer : TxnPointer) : Prop :=
  ∃ txn, store.lookup pointer = some txn ∧ ∀ timelineId, txn.timelineState ≠ .ready timelineId

variable (store) in
/-- No transaction of the account has the last 64-bit number. -/
def HasNext (address : AccountAddress) : Prop :=
  ∀ number, store.Stored (address, number) → number + 1 < 2 ^ 64

/-- Some transactions of an account become ready, and others are parked. -/
structure Sorting (before : TransactionStore Data Hash) (address : AccountAddress)
    (promoted : Nat → Prop) (minSeq : Nat)
    (after : TransactionStore Data Hash) : Prop where
  resorted : before.Resorted after
  untouched : ∀ pointer,
    ¬ (pointer.1 = address ∧ promoted pointer.2) → after.lookup pointer = before.lookup pointer
  ready : ∀ pointer, after.Ready pointer ↔
    before.Ready pointer ∨ (pointer.1 = address ∧ promoted pointer.2 ∧ before.Stored pointer)
  parked : ∀ pointer, after.Parked pointer ↔
    (before.Parked pointer ∧ ¬ (pointer.1 = address ∧ promoted pointer.2)) ∨
      (pointer.1 = address ∧ minSeq < pointer.2 ∧ after.Waiting pointer)

variable (store) in
/-- The store with the result of a promotion. -/
def withPromotion (address : AccountAddress) (promotion : Promotion Data) :
    TransactionStore Data Hash :=
  { store with
    transactions := store.transactions.insert address promotion.txns
    priorityIndex := promotion.priorityIndex
    timelineIndex := promotion.timelineIndex
    parkingLotIndex := promotion.parkingLotIndex }

/-- The parts of the store that a promotion changes. -/
def promotion (store : TransactionStore Data Hash)
    (txns : AccountTransactions Data) : Promotion Data :=
  ⟨txns, store.priorityIndex, store.timelineIndex, store.parkingLotIndex⟩

theorem lookup_withPromotion (store : TransactionStore Data Hash) (address : AccountAddress)
    (promotion : Promotion Data) (pointer : TxnPointer) :
    (store.withPromotion address promotion).lookup pointer =
      if address = pointer.1 then promotion.txns.get? pointer.2
      else store.lookup pointer :=
  store.lookup_insert address promotion.txns pointer

section

variable {txns : AccountTransactions Data} (found : store.transactions.get? address = some txns)
include found

theorem processReadyTransactions_of_get? (crsnOrSeqno : AccountSequenceInfo) :
    store.processReadyTransactions address crsnOrSeqno = store.withPromotion address
      (((store.promotion txns).promoteReady crsnOrSeqno).1.parkBehind
        ((store.promotion txns).promoteReady crsnOrSeqno).2) := by
  rw [processReadyTransactions, found]
  rfl

variable (indexed : store.Indexed hasher pendingSystem pendingExpiration)
include indexed

theorem Indexed.sound : (store.promotion txns).Sound address := by
  refine ⟨?_, ?_, indexed.parking⟩
  · intro number txn there
    exact indexed.keyed _ _ ((lookup_of_get? found number).trans there)
  · rintro key member rfl
    obtain ⟨txn, there, own⟩ := indexed.queued key member
    exact ⟨txn, (lookup_of_get? found key.pointer.2).symm.trans there, own⟩

/-- The store after some transactions were promoted and those behind were parked. -/
theorem Indexed.sorting {after : Promotion Data}
    (promotes : (store.promotion txns).Promotes address promoted after) (minSeq : Nat) :
    (store.withPromotion address (after.parkBehind minSeq)).Indexed hasher
        pendingSystem pendingExpiration ∧
      store.Sorting address promoted minSeq
        (store.withPromotion address (after.parkBehind minSeq)) := by
  have sound := promotes.sound (indexed.sound found)
  have lookups := store.lookup_withPromotion address (after.parkBehind minSeq)
  have own : ∀ number, (store.withPromotion address (after.parkBehind minSeq)).lookup
    (address, number) = after.txns.get? number := by
    intro number
    rw [lookups, if_pos rfl]
    rfl
  obtain ⟨parking, parkedIff⟩ := sound.parkBehind minSeq
  have resorted : store.Resorted (store.withPromotion address (after.parkBehind minSeq)) := by
    refine ⟨?_, rfl, rfl, rfl, rfl, rfl⟩
    rintro ⟨account, number⟩
    by_cases same : account = address
    · rw [same, own, lookup_of_get? found]
      exact promotes.txns number
    · rw [lookups, if_neg (Ne.symm same)]
  have parked : ∀ pointer, (store.withPromotion address (after.parkBehind minSeq)).Parked pointer ↔
    (store.Parked pointer ∧ ¬ (pointer.1 = address ∧ promoted pointer.2)) ∨
      (pointer.1 = address ∧ minSeq < pointer.2 ∧
        (store.withPromotion address (after.parkBehind minSeq)).Waiting pointer) := by
    rintro ⟨account, number⟩
    refine (parkedIff account number).trans ?_
    rw [promotes.parked]
    refine or_congr_right (and_congr_right ?_)
    rintro rfl
    rw [Waiting, own]
  have queue : ∀ key ∈ after.priorityIndex, key ∈ store.priorityIndex ∨
    ∃ number txn,
      promoted number ∧ store.lookup (address, number) = some txn ∧ makeKey txn = key := by
    intro key member
    rcases (promotes.queue key).mp member with
      old | ⟨number, txn, chosen, there, isKey⟩
    · exact .inl old
    · exact .inr ⟨number, txn, chosen, (lookup_of_get? found number).trans there, isKey⟩
  refine ⟨indexed.resorted resorted ?_ parking ?_, ⟨resorted, ?_, ?_, parked⟩⟩
  · intro key member
    rcases queue key member with old | ⟨number, txn, -, there, rfl⟩
    · exact indexed.queued key old
    · refine ⟨txn, ?_, rfl⟩
      rw [pointer_makeKey, (indexed.keyed _ _ there).pointer_eq]
      exact there
  · intro pointer isParked
    rcases (parked pointer).mp isParked with ⟨old, -⟩ | ⟨-, -, txn, there, -⟩
    · exact indexed.parked pointer old
    · exact (resorted.stored_iff pointer).mp ⟨txn, there⟩
  · rintro ⟨account, number⟩ notPromoted
    by_cases same : account = address
    · subst same
      rw [own, lookup_of_get? found]
      exact promotes.untouched number fun chosen => notPromoted ⟨rfl, chosen⟩
    · rw [lookups, if_neg (Ne.symm same)]
  · rintro ⟨account, number⟩
    constructor
    · rintro ⟨key, member, isPointer⟩
      rcases queue key member with old | ⟨other, txn, chosen, there, rfl⟩
      · exact .inl ⟨key, old, isPointer⟩
      · rw [pointer_makeKey, (indexed.keyed _ _ there).pointer_eq] at isPointer
        cases isPointer
        exact .inr ⟨rfl, chosen, txn, there⟩
    · rintro (⟨key, old, isPointer⟩ | ⟨rfl, chosen, txn, there⟩)
      · exact ⟨key, (promotes.queue key).mpr (.inl old), isPointer⟩
      · refine ⟨makeKey txn, (promotes.queue _).mpr (.inr ?_), ?_⟩
        · exact ⟨number, txn, chosen, (lookup_of_get? found number).symm.trans there, rfl⟩
        · exact (indexed.keyed _ _ there).pointer_eq

omit found in
/-- The indexes stay in step, whatever the kind of account. -/
theorem Indexed.processReadyTransactions (address : AccountAddress)
    (crsnOrSeqno : AccountSequenceInfo) :
    (store.processReadyTransactions address crsnOrSeqno).Indexed hasher
        pendingSystem pendingExpiration ∧
      store.Resorted (store.processReadyTransactions address crsnOrSeqno) := by
  cases found : store.transactions.get? address with
  | none =>
    rw [TransactionStore.processReadyTransactions, found]
    exact ⟨indexed, fun _ => rfl, rfl, rfl, rfl, rfl, rfl⟩
  | some txns =>
    obtain ⟨promoted, promotes⟩ := (indexed.sound found).promoteReady crsnOrSeqno
    rw [processReadyTransactions_of_get? found]
    obtain ⟨left, sorting⟩ := indexed.sorting found promotes _
    exact ⟨left, sorting.resorted⟩

/-- For a number, what follows without a gap becomes ready. -/
theorem Indexed.processReady_sequential (hasNext : store.HasNext address) (sequenceNumber : Nat) :
    ∃ stop, sequenceNumber ≤ stop ∧
      (∀ number, sequenceNumber ≤ number → number < stop → store.Stored (address, number)) ∧
      ¬ store.Stored (address, stop) ∧
      store.Sorting address (fun number => sequenceNumber ≤ number ∧ number < stop) stop
        (store.processReadyTransactions address (.sequential sequenceNumber)) := by
  obtain ⟨stop, ends, order, promotes, stored, last⟩ :=
    (indexed.sound found).promoteRun
      (fun number txn there => hasNext number ⟨txn, (lookup_of_get? found number).trans there⟩)
      txns.size sequenceNumber
  refine ⟨stop, order, ?_, ?_, ?_⟩
  · intro number lower upper
    obtain ⟨txn, there⟩ := stored number lower upper
    exact ⟨txn, (lookup_of_get? found number).trans there⟩
  · rintro ⟨txn, there⟩
    rw [lookup_of_get? found] at there
    rcases last with atEnd | absent
    · have run :
          ∀ number, sequenceNumber ≤ number → number < sequenceNumber + (txns.size + 1) →
            ∃ txn, txns.get? number = some txn := by
        intro number lower upper
        by_cases same : number = stop
        · rw [same]
          exact ⟨txn, there⟩
        · exact stored number lower (by omega)
      have tooMany := Promotion.le_size_of_stored run
      omega
    · exact Option.some_ne_none _ (there.symm.trans absent)
  · rw [processReadyTransactions_of_get? found]
    have sorting := (indexed.sorting found promotes stop).2
    rw [← ends] at sorting ⊢
    exact sorting

end

end TransactionStore

end Promotions

end Diem.CoreMempool
