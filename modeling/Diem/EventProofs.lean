import Diem.LedgerSync

namespace Diem

open MerkleForest Fallible Nat

/-!
# Event proofs

An event is proved in two steps (`types/src/proof/definition.rs`): it is a leaf of the
event accumulator of a transaction info, and the info is a leaf of the ledger.  A proof
looks at as many bits of an index as it has siblings.  The version is below that of the
ledger info, so no bit of it is left out; the index of the event has no bound.
-/

/-- The siblings on the way from a leaf to the root. -/
structure AccumulatorProof (Hash : Type) where
  siblings : List Hash
  deriving DecidableEq

namespace AccumulatorProof

open AccumulatorRangeProof (
  internal_ne_padded_zero internal_eq_padded_succ leaf_ne_padded_succ)

variable {Hash : Type} {hasher : Hasher Hash} {isLeaf : Hash → Prop}

/-- Combine a node with its siblings up to the root. -/
def climb (hasher : Hasher Hash) (siblings : List Hash) (hash : Hash) (index : Nat) : Hash :=
  (siblings.foldl
    (fun (hash, index) siblingHash =>
      (if index % 2 = 0 then hasher.internal hash siblingHash
        else hasher.internal siblingHash hash,
        index / 2))
    (hash, index)).1

/-- The element is in the accumulator at the given index. -/
def verify [DecidableEq Hash] (hasher : Hasher Hash) (proof : AccumulatorProof Hash)
    (expectedRootHash elementHash : Hash) (elementIndex : Nat) : Fallible Unit := do
  ensure (proof.siblings.length ≤ maxAccumulatorProofDepth)
    (s!"Accumulator proof has more than {maxAccumulatorProofDepth} " ++
      s!"({proof.siblings.length}) siblings.")
  ensure (climb hasher proof.siblings elementHash elementIndex = expectedRootHash)
    "Root hashes do not match."

variable {leaf : Nat → Hash} {count level index : Nat} {hash : Hash}

/-- Siblings that lead to the root are those of the padded tree. -/
theorem climb_sound (free : CollisionFree hasher isLeaf)
    (areLeaves : ∀ index < count, isLeaf (leaf index)) {siblings : List Hash}
    (climbed : climb hasher siblings hash index = paddedHash hasher leaf count level 0) :
    ∃ low, level = low + siblings.length ∧
      hash = paddedHash hasher leaf count low (index % 2 ^ siblings.length) := by
  induction siblings generalizing hash index with
  | nil => exact ⟨level, rfl, by simpa [climb, mod_one] using climbed⟩
  | cons sibling siblings ih =>
    obtain ⟨low, height, parent⟩ := ih climbed
    have position :
        index % 2 ^ (siblings.length + 1) = index % 2 + 2 * (index / 2 % 2 ^ siblings.length) := by
      rw [pow_succ', mod_mul]
    rw [List.length_cons, position]
    cases low with
    | zero =>
      split at parent
      · exact (internal_ne_padded_zero free areLeaves parent).elim
      · exact (internal_ne_padded_zero free areLeaves parent).elim
    | succ low =>
      refine ⟨low, by omega, ?_⟩
      split at parent
      · rename_i even
        rw [even, zero_add]
        exact (internal_eq_padded_succ free parent).1
      · rename_i odd
        rw [mod_two_ne_zero.mp odd, add_comm]
        exact (internal_eq_padded_succ free parent).2

/-- An element that verifies is the leaf at its index reduced to the width of the tree. -/
theorem verify_sound [DecidableEq Hash] {proof : AccumulatorProof Hash}
    (free : CollisionFree hasher isLeaf) (areLeaves : ∀ index < count, isLeaf (leaf index))
    (isElement : isLeaf hash)
    (accepted : proof.verify hasher (rootHash hasher leaf count) hash index = .ok ()) :
    index % 2 ^ clog 2 count < count ∧ hash = leaf (index % 2 ^ clog 2 count) := by
  obtain ⟨-, climbed⟩ := check_eq_ok_iff.mp accepted
  obtain ⟨low, height, isPadded⟩ := climb_sound free areLeaves (ensure_eq_ok_iff.mp climbed)
  cases low with
  | succ low => exact (leaf_ne_padded_succ free isElement isPadded).elim
  | zero =>
    rw [zero_add] at height
    rw [← height, paddedHash] at isPadded
    split at isPadded
    · exact ⟨by assumption, isPadded⟩
    · exact (free.leaf_ne_placeholder isElement isPadded).elim

end AccumulatorProof

structure TransactionInfoWithProof where
  ledgerInfoToTransactionInfoProof : AccumulatorProof HashValue
  transactionInfo : TransactionInfo
  deriving DecidableEq

/-- A path from an event to the ledger. -/
structure EventProof where
  transactionInfoWithProof : TransactionInfoWithProof
  transactionInfoToEventProof : AccumulatorProof HashValue
  deriving DecidableEq

variable {Transaction ContractEvent : Type}
  {hashing : LedgerHashing Transaction ContractEvent}

/-- The info is in the ledger at the given version. -/
def verifyTransactionInfo (hashing : LedgerHashing Transaction ContractEvent)
    (ledgerInfo : LedgerInfo) (transactionVersion : Nat) (transactionInfo : TransactionInfo)
    (proof : AccumulatorProof HashValue) : Fallible Unit := do
  ensure (transactionVersion ≤ ledgerInfo.version)
    (s!"Transaction version {transactionVersion} is newer than LedgerInfo " ++
      s!"version {ledgerInfo.version}.")
  proof.verify hashing.transactionAccumulator ledgerInfo.transactionAccumulatorHash
    (hashing.hashTransactionInfo transactionInfo) transactionVersion

/-- The event is that of the given version and index. -/
def EventProof.verify (hashing : LedgerHashing Transaction ContractEvent) (proof : EventProof)
    (ledgerInfo : LedgerInfo) (eventHash : HashValue)
    (transactionVersion eventVersionWithinTransaction : Nat) : Fallible Unit := do
  let info := proof.transactionInfoWithProof
  proof.transactionInfoToEventProof.verify hashing.eventAccumulator
    info.transactionInfo.eventRootHash eventHash eventVersionWithinTransaction
  verifyTransactionInfo hashing ledgerInfo transactionVersion
    info.transactionInfo info.ledgerInfoToTransactionInfoProof

def LedgerHashing.IsEventHash (hashing : LedgerHashing Transaction ContractEvent)
    (hash : HashValue) : Prop :=
  ∃ event, hashing.hashEvent event = hash

variable {ledgerInfo : LedgerInfo} {ledger : List TransactionInfo}
  {version index : Nat} {info : TransactionInfo}

/-- An info that verifies is the one at its version. -/
theorem verifyTransactionInfo_sound {other : TransactionInfo} {proof : AccumulatorProof HashValue}
    (free : hashing.CollisionFree) (commits : hashing.Commits ledgerInfo ledger)
    (found : ledger[version]? = some info)
    (accepted : verifyTransactionInfo hashing ledgerInfo version other proof = .ok ()) :
    other = info := by
  obtain ⟨-, accepted⟩ := check_eq_ok_iff.mp accepted
  have fits : ledger.length < 2 ^ 64 := lt_of_le_of_lt commits.fits (by decide)
  rw [commits.root.eq_rootHash fits] at accepted
  obtain ⟨-, same⟩ := AccumulatorProof.verify_sound free.accumulator
    LedgerHashing.isInfoHash_leafOf ⟨other, rfl⟩ accepted
  obtain ⟨inside, isInfo⟩ := List.getElem?_eq_some_iff.mp found
  have below := inside.trans_le (length_le_treeWidth ledger)
  rw [treeWidth] at below
  rw [mod_eq_of_lt below, LedgerHashing.leafOf_eq inside] at same
  rw [← isInfo]
  exact free.infos same

/--
An event that verifies is the one at its index exactly if the index is below the width of
the event tree.
-/
theorem verified_event_pinned_iff
    {events : List ContractEvent}
    {eventHash : HashValue}
    (free : hashing.CollisionFree)
    (eventsFree : MerkleForest.CollisionFree hashing.eventAccumulator hashing.IsEventHash)
    (commits : hashing.Commits ledgerInfo ledger)
    (found : ledger[version]? = some info)
    (isEvents : EventsMatch hashing events info)
    (fits : events.length < 2 ^ 64)
    (isEvent : hashing.IsEventHash eventHash)
    (proof : EventProof)
    (accepted : proof.verify hashing ledgerInfo eventHash version index = .ok ()) :
    (∃ event, events[index]? = some event ∧ hashing.hashEvent event = eventHash) ↔
      index < 2 ^ clog 2 events.length := by
  obtain ⟨accepted, isInfo⟩ := check_eq_ok_iff.mp accepted
  have width : events.length ≤ 2 ^ clog 2 events.length := le_pow_clog (by decide) _
  constructor
  · rintro ⟨event, foundEvent, -⟩
    exact (List.getElem?_eq_some_iff.mp foundEvent).1.trans_le width
  intro below
  obtain ⟨accumulator, built, isRoot⟩ := isEvents
  rw [InMemoryAccumulator.fromLeaves_eq_summary hashing.eventAccumulator _
    (MerkleAccumulator.leavesFrom_leafAt hashing.eventAccumulator _)
    (by simpa using fits)] at built
  cases built
  rw [verifyTransactionInfo_sound free commits found isInfo, ← isRoot] at accepted
  obtain ⟨inside, isLeaf⟩ := AccumulatorProof.verify_sound eventsFree (by
      intro position inside
      simp only [List.length_map] at inside
      exact ⟨events[position], by simp [MerkleAccumulator.leafAt, inside]⟩)
      isEvent accepted
  simp only [List.length_map] at inside isLeaf
  rw [mod_eq_of_lt below] at inside isLeaf
  refine ⟨events[index], List.getElem?_eq_getElem inside, ?_⟩
  simp [isLeaf, MerkleAccumulator.leafAt, inside]

namespace LedgerHashing

theorem symbolic_eventsFree :
    MerkleForest.CollisionFree symbolic.eventAccumulator symbolic.IsEventHash where
  injective same := HashValue.pair.inj (HashValue.pair.inj same).2
  leaf_ne_internal := by
    rintro _ left right ⟨event, rfl⟩ same
    cases (HashValue.pair.inj same).1
  leaf_ne_placeholder := by
    rintro _ ⟨event, rfl⟩ same
    cases same
  placeholder_ne_internal same := by cases same

def eventInfo : TransactionInfo :=
  { plainInfo 0 with eventRootHash := symbolic.hashEvent 7 }

def eventLedgerInfo : LedgerInfo :=
  plainLedgerInfo 0 (symbolic.hashTransactionInfo eventInfo)

end LedgerHashing

open LedgerHashing

/-- The second transaction with two events; the second event is also accepted under index 3. -/
theorem verified_event_pinned_iff_second :
    let pinned index :=
      ∃ event, [7, 8][index]? = some event ∧ symbolic.hashEvent event = symbolic.hashEvent 8
    pinned 1 ∧ ¬ pinned 3 := by
  let info := { plainInfo 1 with
    eventRootHash :=
      symbolic.eventAccumulator.internal (symbolic.hashEvent 7) (symbolic.hashEvent 8) }
  let ledgerInfo := plainLedgerInfo 1
    (symbolic.transactionAccumulator.internal (plainLeaf 0) (symbolic.hashTransactionInfo info))
  let proof : EventProof := ⟨⟨⟨[plainLeaf 0]⟩, info⟩, ⟨[symbolic.hashEvent 7]⟩⟩
  have pinned index
      (accepted : proof.verify symbolic ledgerInfo (symbolic.hashEvent 8) 1 index = _) :=
    verified_event_pinned_iff symbolic_collisionFree symbolic_eventsFree
      (⟨rfl, by decide, _, rfl, rfl⟩ : symbolic.Commits ledgerInfo [plainInfo 0, info])
      (rfl : [plainInfo 0, info][1]? = some info)
      (⟨_, rfl, rfl⟩ : EventsMatch symbolic [7, 8] info) (by decide) ⟨8, rfl⟩ proof accepted
  exact ⟨(pinned 1 rfl).mpr (by decide), mt (pinned 3 rfl).mp (by decide)⟩

/-- The only event of a transaction is accepted under index 5 as well. -/
theorem only_event_aliased :
    EventProof.verify symbolic ⟨⟨⟨[]⟩, eventInfo⟩, ⟨[]⟩⟩ eventLedgerInfo
        (symbolic.hashEvent 7) 0 5 = .ok () ∧
      symbolic.Commits eventLedgerInfo [eventInfo] ∧
      EventsMatch symbolic [7] eventInfo ∧
      ¬ ∃ event, [7][5]? = some event ∧ symbolic.hashEvent event = symbolic.hashEvent 7 := by
  refine ⟨rfl, ⟨rfl, by decide, _, rfl, rfl⟩, ⟨_, rfl, rfl⟩, ?_⟩
  rintro ⟨event, found, -⟩
  cases found

end Diem
