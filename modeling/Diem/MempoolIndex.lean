import Diem.RankedSet
import Diem.SwapRemove
import Diem.ValidatorVerifier
import Mathlib.Data.Prod.Lex

namespace Diem.CoreMempool

/-!
# Indexes of the mempool

The transactions of `mempool/src/core_mempool/transaction.rs` and the indexes of
`mempool/src/core_mempool/index.rs` over them: the queue by priority, the queues by
expiration time, the log of transactions to broadcast and the parking lot.  Durations are
natural numbers of nanoseconds.
-/

/-- What the chain knows about the sequence numbers of an account. -/
inductive AccountSequenceInfo where
  | sequential (sequenceNumber : Nat)
  | crsn (minNonce size : Nat)
  deriving DecidableEq

/-- The smallest sequence number that is still open. -/
def AccountSequenceInfo.minSeq : AccountSequenceInfo → Nat
  | .sequential sequenceNumber => sequenceNumber
  | .crsn minNonce _ => minNonce

/-- The role of an account in the governance of the chain. -/
inductive GovernanceRole where
  | diemRoot
  | treasuryCompliance
  | validator
  | validatorOperator
  | designatedDealer
  | nonGovernanceRole
  deriving DecidableEq

/-- The higher the number the earlier the transactions of the account. -/
def GovernanceRole.priority : GovernanceRole → Nat
  | .diemRoot => 3
  | .treasuryCompliance => 2
  | .validator => 1
  | .validatorOperator => 1
  | .designatedDealer => 1
  | .nonGovernanceRole => 0

/-- Where a transaction stands in the log of transactions to broadcast. -/
inductive TimelineState where
  | ready (timelineId : Nat)
  | notReady
  | nonQualified
  deriving DecidableEq

/-- A signed transaction with a 64-bit sequence number; `rest` is all that is not named. -/
structure SignedTransaction (Data : Type) where
  sender : AccountAddress
  sequenceNumber : Nat
  isU64 : sequenceNumber < 2 ^ 64
  payload : Data
  maxGasAmount : Nat
  gasUnitPrice : Nat
  expirationTimestampSecs : Nat
  rest : Data
  deriving DecidableEq

structure SequenceInfo where
  transactionSequenceNumber : Nat
  accountSequenceNumberType : AccountSequenceInfo
  deriving DecidableEq

/-- A transaction with what mempool knows of it. -/
structure MempoolTransaction (Data : Type) where
  txn : SignedTransaction Data
  expirationTime : Nat
  gasAmount : Nat
  rankingScore : Nat
  timelineState : TimelineState
  governanceRole : GovernanceRole
  sequenceInfo : SequenceInfo
  deriving DecidableEq

/-- The sender and the sequence number of a transaction. -/
abbrev TxnPointer := AccountAddress × Nat

/-- The transaction after another one; the addition of the release build wraps. -/
def TxnPointer.next (pointer : TxnPointer) : TxnPointer :=
  (pointer.1, Word64.wrap (pointer.2 + 1))

section Indexes

variable {Data : Type}

def MempoolTransaction.pointer (txn : MempoolTransaction Data) : TxnPointer :=
  (txn.txn.sender, txn.sequenceInfo.transactionSequenceNumber)

/-!
## The queue by priority
-/

/-- What decides the place in the queue. -/
structure OrderedQueueKey where
  gasRankingScore : Nat
  expirationTime : Nat
  address : AccountAddress
  sequenceNumber : SequenceInfo
  governanceRole : GovernanceRole
  deriving DecidableEq

/-- What the order of the queue looks at, the most important part first. -/
abbrev QueueRank :=
  Nat ×ₗ Nat ×ₗ Natᵒᵈ ×ₗ AccountAddress ×ₗ Natᵒᵈ

/--
The rank of a transaction: by role and score, then the earlier expiration and, for one
account, the smaller sequence number counts more.
-/
def OrderedQueueKey.rank (key : OrderedQueueKey) : QueueRank :=
  toLex (key.governanceRole.priority,
    toLex (key.gasRankingScore,
      toLex (.toDual key.expirationTime,
        toLex (key.address, .toDual key.sequenceNumber.transactionSequenceNumber))))

def OrderedQueueKey.pointer (key : OrderedQueueKey) : TxnPointer :=
  (key.address, key.sequenceNumber.transactionSequenceNumber)

abbrev PriorityIndex := RankedSet OrderedQueueKey.rank

namespace PriorityIndex

variable (index : PriorityIndex) (txn : MempoolTransaction Data)

def makeKey : OrderedQueueKey where
  gasRankingScore := txn.rankingScore
  expirationTime := txn.expirationTime
  address := txn.txn.sender
  sequenceNumber := txn.sequenceInfo
  governanceRole := txn.governanceRole

/-- Add a transaction. -/
def insertTxn : PriorityIndex := index.insert (makeKey txn)

def removeTxn : PriorityIndex := index.remove (makeKey txn)

/-- The queue from the highest rank on. -/
def iter : List OrderedQueueKey := index.keys.reverse

end PriorityIndex

/-!
## The queues by expiration time
-/

/-- A transaction with the time it expires. -/
structure TTLOrderingKey where
  expirationTime : Nat
  address : AccountAddress
  sequenceNumber : Nat
  deriving DecidableEq

/-- The order: by time first. -/
def TTLOrderingKey.rank (key : TTLOrderingKey) : Nat ×ₗ AccountAddress ×ₗ Nat :=
  toLex (key.expirationTime, toLex (key.address, key.sequenceNumber))

/-- Transactions by a time of expiration. -/
structure TTLIndex (Data : Type) where
  data : RankedSet TTLOrderingKey.rank
  getExpirationTime : MempoolTransaction Data → Nat

namespace TTLIndex

variable (index : TTLIndex Data) (txn : MempoolTransaction Data)

def makeKey : TTLOrderingKey where
  expirationTime := index.getExpirationTime txn
  address := txn.txn.sender
  sequenceNumber := txn.sequenceInfo.transactionSequenceNumber

/-- Add a transaction. -/
def insert : TTLIndex Data :=
  { index with data := index.data.insert (index.makeKey txn) }

def remove : TTLIndex Data :=
  { index with data := index.data.remove (index.makeKey txn) }

/-- Whether a key comes before all that have not expired. -/
def expired (now : Nat) (key : TTLOrderingKey) : Bool :=
  key.rank < (⟨now, 0, 0⟩ : TTLOrderingKey).rank

/-- Take out what has expired. -/
def gc (now : Nat) : List TTLOrderingKey × TTLIndex Data :=
  ((index.data.filter (expired now)).keys,
    { index with data := index.data.filter fun key => !expired now key })

/-- The number of transactions. -/
def size : Nat := index.data.size

end TTLIndex

/-!
## The log of transactions to broadcast
-/

/-- The log, with the next position. -/
structure TimelineIndex where
  timelineId : Nat
  timeline : OrderedMap Nat TxnPointer

namespace TimelineIndex

/-- The log without transactions. -/
def new : TimelineIndex where
  timelineId := 1
  timeline := .empty

variable (index : TimelineIndex) (txn : MempoolTransaction Data)

/-- Add a transaction, which becomes ready. -/
def insert : TimelineIndex × MempoolTransaction Data :=
  (⟨index.timelineId + 1, index.timeline.insert index.timelineId txn.pointer⟩,
    { txn with timelineState := .ready index.timelineId })

/-- Remove a transaction that is in the log. -/
def remove : TimelineIndex :=
  match txn.timelineState with
  | .ready timelineId => { index with timeline := index.timeline.erase timelineId }
  | _ => index

end TimelineIndex

/-!
## The parking lot
-/

/-- Transactions that cannot be in the next block, with a position for each account. -/
structure ParkingLotIndex where
  data : List (AccountAddress × Finset Nat)
  accountIndices : OrderedMap AccountAddress Nat
  size : Nat

namespace ParkingLotIndex

def new : ParkingLotIndex where
  data := []
  accountIndices := .empty
  size := 0

variable (index : ParkingLotIndex) (txn : MempoolTransaction Data)

def insert : ParkingLotIndex :=
  let sender := txn.txn.sender
  let sequenceNumber := txn.txn.sequenceNumber
  match index.accountIndices.get? sender with
  | some position =>
    match index.data[position]? with
    | some (account, seqNums) =>
      { index with
        data := index.data.set position (account, Insert.insert sequenceNumber seqNums)
        size :=
          if sequenceNumber ∈ seqNums then index.size
          else index.size + 1 }
    -- the source logs a violated invariant here
    | none => index
  | none =>
    { data := index.data ++ [(sender, {sequenceNumber})]
      accountIndices := index.accountIndices.insert sender index.data.length
      size := index.size + 1 }

/-- Remove the entry of an account and move the last entry to its position. -/
def dropAccount (sender : AccountAddress) (position : Nat) : ParkingLotIndex :=
  let data := swapRemove index.data position
  let accountIndices := index.accountIndices.erase sender
  { index with
    data
    accountIndices :=
      match data[position]? with
      | some (swappedAccount, _) => accountIndices.insert swappedAccount position
      | none => accountIndices }

/-- Take a transaction out of the parking lot. -/
def remove : ParkingLotIndex :=
  let sender := txn.txn.sender
  let sequenceNumber := txn.txn.sequenceNumber
  match index.accountIndices.get? sender with
  | some position =>
    match index.data[position]? with
    | some (account, txns) =>
      let size :=
        if sequenceNumber ∈ txns then index.size - 1 else index.size
      let remaining := txns.erase sequenceNumber
      if remaining = ∅ then
        { index with size }.dropAccount sender position
      else
        { index with
          data := index.data.set position (account, remaining)
          size }
    | none => index
  | none => index

/-- Whether a transaction is parked. -/
def contains (account : AccountAddress) (seqNum : Nat) : Bool :=
  match index.accountIndices.get? account with
  | some position =>
    match index.data[position]? with
    | some (_, txns) => seqNum ∈ txns
    | none => false
  | none => false

/-- The last transaction of a parked account; the choice of the account is random. -/
def getPoppable (choice : Nat) : Option TxnPointer :=
  match index.data[choice % index.data.length]? with
  | some (sender, txns) =>
    match txns.max with
    | some seqNum => some (sender, seqNum)
    | none => none
  | none => none

end ParkingLotIndex

end Indexes

/-!
## A cache with expiration
-/

/-- The clock has signed 64-bit seconds since the epoch: a `SystemTime` is before this time. -/
def systemTimeEnd : Nat := 2 ^ 63 * 1000000000

/-- `SystemTime::checked_add`. -/
def checkedAdd? (time duration : Nat) : Option Nat :=
  if time + duration < systemTimeEnd then some (time + duration) else none

/-- A cache whose entries expire, and lose their place to newer ones. -/
structure TtlCache (Key Value : Type) [LinearOrder Key] where
  capacity : Nat
  defaultTimeout : Nat
  data : OrderedMap Key (Value × Nat)
  ttlIndex : OrderedMap Nat Key

namespace TtlCache

variable {Key Value : Type} [LinearOrder Key]

def new (capacity defaultTimeout : Nat) : TtlCache Key Value where
  capacity := capacity
  defaultTimeout := defaultTimeout
  data := .empty
  ttlIndex := .empty

variable (cache : TtlCache Key Value)

/-- Read an entry. -/
def get (key : Key) : Option Value :=
  (cache.data.get? key).map Prod.fst

/-- Forget the place of the key in the index or, in a full cache, the oldest entry. -/
def makeRoom (key : Key) : TtlCache Key Value :=
  match cache.data.get? key with
  | some info => { cache with ttlIndex := cache.ttlIndex.erase info.2 }
  | none =>
    if cache.data.size = cache.capacity then
      match cache.ttlIndex.entries.head? with
      | some (time, oldest) =>
        { cache with
          ttlIndex := cache.ttlIndex.erase time
          data := cache.data.erase oldest }
      | none => cache
    else
      cache

/-- Store an entry at some time; without a time of expiration only the room is made. -/
def insert (now : Nat) (cache : TtlCache Key Value) (key : Key)
    (value : Value) : TtlCache Key Value :=
  let cache := cache.makeRoom key
  match checkedAdd? now cache.defaultTimeout with
  | some expirationTime =>
    { cache with
      ttlIndex := cache.ttlIndex.insert expirationTime key
      data := cache.data.insert key (value, expirationTime) }
  | none => cache

def remove (key : Key) : Option Value × TtlCache Key Value :=
  match cache.data.get? key with
  | some info =>
    (some info.1,
      { cache with
        data := cache.data.erase key
        ttlIndex := cache.ttlIndex.erase info.2 })
  | none => (none, cache)

/-- Remove what has expired. -/
def gc (gcTime : Nat) (cache : TtlCache Key Value) : TtlCache Key Value :=
  let expired := cache.ttlIndex.filter fun entry => entry.1 < gcTime
  { cache with
    data := expired.values.foldl (fun data key => data.erase key) cache.data
    ttlIndex := cache.ttlIndex.filter fun entry => gcTime ≤ entry.1 }

end TtlCache

end Diem.CoreMempool
