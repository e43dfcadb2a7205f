import Diem.TransactionStore

namespace Diem.CoreMempool

/-!
# The mempool

`mempool/src/core_mempool/mempool.rs`: the store with a cache of the sequence numbers of
the accounts.  Readings of clocks are arguments; the cache for measuring latency is left
out.  Sequence numbers are 64-bit numbers, and the release build wraps after the last one.
-/

section Mempool

variable {Data Hash : Type} [LinearOrder Hash]

/-- The mempool of one node. -/
structure Mempool (Data Hash : Type) [LinearOrder Hash] where
  transactions : TransactionStore Data Hash
  sequenceNumberCache : TtlCache AccountAddress Nat
  systemTransactionTimeout : Nat

/-- The sizes and times of a mempool. -/
structure MempoolConfig where
  capacity : Nat
  capacityPerUser : Nat
  systemTransactionTimeoutSecs : Nat
  deriving DecidableEq

namespace Mempool

def new (config : MempoolConfig) : Mempool Data Hash where
  transactions := .new config.capacity config.capacityPerUser
  sequenceNumberCache := .new config.capacity (TransactionStore.fromSecs 100)
  systemTransactionTimeout := TransactionStore.fromSecs config.systemTransactionTimeoutSecs

variable (hasher : CommittedHash Data Hash)
  (mempool : Mempool Data Hash)

/-- What the store is told about an account whose transaction was committed. -/
def committedSequenceInfo (sender : AccountAddress)
    (sequenceNumber newSeqNumber : Nat) : AccountSequenceInfo :=
  match mempool.transactions.getMempoolTxn sender sequenceNumber with
  | some txn =>
    match txn.sequenceInfo.accountSequenceNumberType with
    | .crsn minNonce size => .crsn minNonce size
    | .sequential _ => .sequential newSeqNumber
  | none => .sequential newSeqNumber

/-- Handle a transaction that was committed, or rejected; `now` is read twice. -/
def removeTransaction (now later : Nat) (mempool : Mempool Data Hash)
    (sender : AccountAddress) (sequenceNumber : Nat)
    (isRejected : Bool) : Mempool Data Hash :=
  let (cached, cache) := mempool.sequenceNumberCache.remove sender
  let currentSeqNumber := cached.getD 0
  if isRejected = true then
    { mempool with
      sequenceNumberCache := cache
      transactions :=
        if currentSeqNumber ≤ sequenceNumber then
          mempool.transactions.rejectTransaction hasher sender
        else
          mempool.transactions }
  else
    let newSeqNumber := max currentSeqNumber (Word64.wrap (sequenceNumber + 1))
    let info := mempool.committedSequenceInfo sender sequenceNumber newSeqNumber
    { mempool with
      sequenceNumberCache := (cache.insert now sender newSeqNumber).insert later sender info.minSeq
      transactions := mempool.transactions.commitTransaction hasher sender info }

/-- The sequence number of an account: what the chain or the cache says. -/
def accountSequenceInfo (sender : AccountAddress) :
    AccountSequenceInfo → AccountSequenceInfo
  | .crsn minNonce size => .crsn minNonce size
  | .sequential dbSequenceNumber =>
    match mempool.sequenceNumberCache.get sender with
    | some value => .sequential (max value dbSequenceNumber)
    | none => .sequential dbSequenceNumber

variable [DecidableEq Data]

/-- What comes with a submitted transaction. -/
structure Submission (Data : Type) where
  txn : SignedTransaction Data
  gasAmount : Nat
  rankingScore : Nat
  crsnOrSeqno : AccountSequenceInfo
  timelineState : TimelineState
  governanceRole : GovernanceRole

def addTxn (now epochTime choice : Nat) (mempool : Mempool Data Hash)
    (submission : Submission Data) : MempoolStatus × Mempool Data Hash :=
  let txn := submission.txn
  let info := mempool.accountSequenceInfo txn.sender submission.crsnOrSeqno
  let mempool :=
    { mempool with
      sequenceNumberCache := mempool.sequenceNumberCache.insert now txn.sender info.minSeq }
  if txn.sequenceNumber < info.minSeq then
    (⟨.invalidSeqNumber,
      s!"transaction sequence number is {txn.sequenceNumber}, current " ++
        s!"sequence number is  {info.minSeq}"⟩,
      mempool)
  else
    let txnInfo : MempoolTransaction Data :=
      { txn
        expirationTime := epochTime + mempool.systemTransactionTimeout
        gasAmount := submission.gasAmount
        rankingScore := submission.rankingScore
        timelineState := submission.timelineState
        governanceRole := submission.governanceRole
        sequenceInfo := ⟨txn.sequenceNumber, info⟩ }
    let (status, transactions) := mempool.transactions.insert hasher choice txnInfo
    (status, { mempool with transactions })

omit [DecidableEq Data]

/-!
### Blocks
-/

/-- The state of the walk over the queue. -/
structure Walk where
  seen : Finset TxnPointer
  skipped : Finset TxnPointer
  result : List TxnPointer
  deriving DecidableEq

namespace Walk

/-- The block has the requested size; this is looked at after something was taken. -/
def full (batchSize : Nat) (walk : Walk) : Bool :=
  0 < walk.result.length ∧ walk.result.length = batchSize

/-- Include a transaction. -/
def take (walk : Walk) (pointer : TxnPointer) : Walk :=
  { walk with
    seen := Insert.insert pointer walk.seen
    result := walk.result ++ [pointer] }

/-- Include what was skipped and follows now; there are at most `steps` such. -/
def takeSkipped (batchSize : Nat) : (steps : Nat) → Walk → TxnPointer → Walk
  | 0, walk, _ => walk
  | steps + 1, walk, pointer =>
    if pointer ∈ walk.skipped ∧ walk.full batchSize = false then
      takeSkipped batchSize steps (walk.take pointer) pointer.next
    else
      walk

end Walk

/-- Whether a transaction can be executed after those that were seen. -/
def isNext (walk : Walk) (key : OrderedQueueKey) : Bool :=
  let txSeq := key.sequenceNumber.transactionSequenceNumber
  let seenPrevious := decide (0 < txSeq ∧ (key.address, txSeq - 1) ∈ walk.seen)
  let isCrsn :=
    match key.sequenceNumber.accountSequenceNumberType with
    | .crsn _ _ => true
    | .sequential _ => false
  seenPrevious || decide (mempool.sequenceNumberCache.get key.address = some txSeq) || isCrsn

variable (batchSize : Nat)

/-- Look at one transaction of the queue. -/
def visit (walk : Walk) (key : OrderedQueueKey) : Walk :=
  if key.pointer ∈ walk.seen then
    walk
  else if mempool.isNext walk key = true then
    Walk.takeSkipped batchSize walk.skipped.card (walk.take key.pointer) key.pointer.next
  else
    { walk with skipped := Insert.insert key.pointer walk.skipped }

/-- Walk over the queue until the block is full. -/
def walkQueue : Walk → List OrderedQueueKey → Walk
  | walk, [] => walk
  | walk, key :: keys =>
    let walk := mempool.visit batchSize walk key
    if walk.full batchSize = true then
      walk
    else
      walkQueue walk keys

/-- The next block for consensus. -/
def getBlock (seen : Finset TxnPointer) : List (SignedTransaction Data) :=
  let walk := mempool.walkQueue batchSize ⟨seen, ∅, []⟩ mempool.transactions.priorityIndex.iter
  walk.result.filterMap fun pointer => mempool.transactions.get pointer.1 pointer.2

/-- Periodic garbage collection; the clocks are read separately. -/
def gc (now epochTime : Nat) (mempool : Mempool Data Hash) : Mempool Data Hash :=
  { mempool with
    transactions := mempool.transactions.gcBySystemTtl hasher epochTime
    sequenceNumberCache := mempool.sequenceNumberCache.gc now }

/-- Garbage collection by the time of a block. -/
def gcByExpirationTime (blockTime : Nat)
    (mempool : Mempool Data Hash) : Mempool Data Hash :=
  { mempool with
    transactions := mempool.transactions.gcByExpirationTime hasher blockTime }

end Mempool

/-!
## Runs
-/

/-- A call of the mempool, with what the environment decides. -/
inductive MempoolCall (Data : Type) where
  | addTxn (now epochTime choice : Nat) (submission : Mempool.Submission Data)
  | removeTransaction (now later : Nat) (sender : AccountAddress) (sequenceNumber : Nat)
      (isRejected : Bool)
  | gc (now epochTime : Nat)
  | gcByExpirationTime (blockTime : Nat)

variable [DecidableEq Data]
  (hasher : CommittedHash Data Hash)
  (mempool : Mempool Data Hash)

def Mempool.call : MempoolCall Data → Mempool Data Hash
  | .addTxn now epochTime choice submission =>
    (mempool.addTxn hasher now epochTime choice submission).2
  | .removeTransaction now later sender sequenceNumber isRejected =>
    mempool.removeTransaction hasher now later sender sequenceNumber isRejected
  | .gc now epochTime => mempool.gc hasher now epochTime
  | .gcByExpirationTime blockTime => mempool.gcByExpirationTime hasher blockTime

/-- The effect of calls one after the other. -/
def Mempool.run (calls : List (MempoolCall Data)) : Mempool Data Hash :=
  calls.foldl (.call hasher) mempool

end Mempool

end Diem.CoreMempool
