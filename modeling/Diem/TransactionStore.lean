import Diem.MempoolIndex

namespace Diem.CoreMempool

/-!
# The store of the mempool

`mempool/src/core_mempool/transaction_store.rs`: the transactions of each account by
sequence number, with all indexes.  The random choice of a transaction to evict is an
argument; logging and counters are left out.
-/

/-- A hash without collisions. -/
structure CommittedHash (Data Hash : Type) where
  hash : SignedTransaction Data → Hash
  injective : Function.Injective hash

/-- The answer to a submission. -/
inductive MempoolStatusCode where
  | accepted
  | invalidSeqNumber
  | mempoolIsFull
  | tooManyTransactions
  | invalidUpdate
  deriving DecidableEq

/-- The answer with its message. -/
structure MempoolStatus where
  code : MempoolStatusCode
  message : String
  deriving DecidableEq

section Store

variable {Data Hash : Type} [LinearOrder Hash]

/-- The transactions of one account by sequence number. -/
abbrev AccountTransactions (Data : Type) :=
  OrderedMap Nat (MempoolTransaction Data)

/-- The transactions and their indexes. -/
structure TransactionStore (Data Hash : Type) [LinearOrder Hash] where
  transactions : OrderedMap AccountAddress (AccountTransactions Data)
  priorityIndex : PriorityIndex
  expirationTimeIndex : TTLIndex Data
  systemTtlIndex : TTLIndex Data
  timelineIndex : TimelineIndex
  parkingLotIndex : ParkingLotIndex
  hashIndex : OrderedMap Hash TxnPointer
  capacity : Nat
  capacityPerUser : Nat

namespace TransactionStore

/-- A duration in seconds. -/
def fromSecs (seconds : Nat) : Nat := seconds * 1000000000

def new (capacity capacityPerUser : Nat) : TransactionStore Data Hash where
  transactions := .empty
  priorityIndex := .empty
  expirationTimeIndex := ⟨.empty, fun txn => fromSecs txn.txn.expirationTimestampSecs⟩
  systemTtlIndex := ⟨.empty, fun txn => txn.expirationTime⟩
  timelineIndex := .new
  parkingLotIndex := .new
  hashIndex := .empty
  capacity := capacity
  capacityPerUser := capacityPerUser

section

variable (store : TransactionStore Data Hash) (address : AccountAddress)
  (sequenceNumber : Nat)

/-- A transaction by its sender and its sequence number. -/
def getMempoolTxn : Option (MempoolTransaction Data) :=
  match store.transactions.get? address with
  | some txns => txns.get? sequenceNumber
  | none => none

/-- The signed transaction of a sender with a sequence number. -/
def get : Option (SignedTransaction Data) :=
  (store.getMempoolTxn address sequenceNumber).map MempoolTransaction.txn

end

variable (hasher : CommittedHash Data Hash)

section

variable (choice : Nat) (store : TransactionStore Data Hash)
  (txn : MempoolTransaction Data) (address : AccountAddress)
  (sequenceNumber : Nat)

def indexRemove : TransactionStore Data Hash :=
  { store with
    systemTtlIndex := store.systemTtlIndex.remove txn
    expirationTimeIndex := store.expirationTimeIndex.remove txn
    priorityIndex := store.priorityIndex.removeTxn txn
    timelineIndex := store.timelineIndex.remove txn
    parkingLotIndex := store.parkingLotIndex.remove txn
    hashIndex := store.hashIndex.erase (hasher.hash txn.txn) }

def removeTxn : TransactionStore Data Hash :=
  match store.transactions.get? address with
  | some txns =>
    match txns.get? sequenceNumber with
    | some txn =>
      indexRemove hasher
        { store with
          transactions := store.transactions.insert address (txns.erase sequenceNumber) }
        txn
    | none => store
  | none => store

/--
Whether a transaction could be broadcast at once.  The source calls `unreachable!` for the
number zero if it is not the current one.  A number below the current one is refused before
this is asked, so the branch is not reached and has no case of its own here.
-/
def checkTxnReady (currSequenceNumber : Nat) : Bool :=
  let txSequenceNumber := txn.sequenceInfo.transactionSequenceNumber
  if txSequenceNumber = currSequenceNumber then
    true
  else
    match store.getMempoolTxn txn.txn.sender (txSequenceNumber - 1) with
    | some prevTxn =>
      match prevTxn.timelineState with
      | .ready _ => true
      | _ => false
    | none => false

/-- Evict a parked transaction for one that is ready, if the mempool is full. -/
def evict (currSequenceNumber : Nat) : TransactionStore Data Hash :=
  if store.capacity ≤ store.systemTtlIndex.size ∧
      store.checkTxnReady txn currSequenceNumber = true then
    match store.parkingLotIndex.getPoppable choice with
    | some (address, sequenceNumber) => removeTxn hasher store address sequenceNumber
    | none => store
  else
    store

/-- Forget what is before a sequence number. -/
def cleanCommittedTransactions : TransactionStore Data Hash :=
  match store.transactions.get? address with
  | some txns =>
    let active := txns.filter fun entry => sequenceNumber ≤ entry.1
    let txnsForRemoval := txns.filter fun entry => entry.1 < sequenceNumber
    txnsForRemoval.values.foldl (indexRemove hasher)
      { store with transactions := store.transactions.insert address active }
  | none => store

/-!
### Ready transactions
-/

/-- What changes when transactions of one account become ready. -/
structure Promotion (Data : Type) where
  txns : AccountTransactions Data
  priorityIndex : PriorityIndex
  timelineIndex : TimelineIndex
  parkingLotIndex : ParkingLotIndex

namespace Promotion

variable (promotion : Promotion Data)

/-- Put a transaction into the queue, and into the log if it is not there yet. -/
def promote (sequenceNumber : Nat)
    (txn : MempoolTransaction Data) : Promotion Data :=
  let priorityIndex := promotion.priorityIndex.insertTxn txn
  let (timelineIndex, txn) :=
    if txn.timelineState = .notReady then
      promotion.timelineIndex.insert txn
    else
      (promotion.timelineIndex, txn)
  { txns := promotion.txns.insert sequenceNumber txn
    priorityIndex
    timelineIndex
    parkingLotIndex := promotion.parkingLotIndex.remove txn }

/--
Promote what follows without a gap; an account has at most `steps` transactions.  The number
after the last one is zero, as in the release build.
-/
def promoteRun :
    (steps : Nat) → Promotion Data → Nat →
    Promotion Data × Nat
  | 0, promotion, minSeq => (promotion, minSeq)
  | steps + 1, promotion, minSeq =>
    match promotion.txns.get? minSeq with
    | some txn => promoteRun steps (promotion.promote minSeq txn) (Word64.wrap (minSeq + 1))
    | none => (promotion, minSeq)

/-- Promote a transaction of a window, if there is one. -/
def promoteNonce (state : Promotion Data × Nat) (nonce : Nat) : Promotion Data × Nat :=
  match state.1.txns.get? nonce with
  | some txn => (state.1.promote nonce txn, nonce)
  | none => state

def park (parkingLotIndex : ParkingLotIndex)
    (txn : MempoolTransaction Data) : ParkingLotIndex :=
  match txn.timelineState with
  | .ready _ => parkingLotIndex
  | _ => parkingLotIndex.insert txn

/-- Promote the transactions of an account that are ready. -/
def promoteReady : AccountSequenceInfo → Promotion Data × Nat
  | .crsn minNonce size =>
    (List.range' minNonce (size - minNonce)).foldl promoteNonce (promotion, minNonce)
  | .sequential sequenceNumber => promoteRun promotion.txns.size promotion sequenceNumber

/-- Park the transactions behind a sequence number. -/
def parkBehind (minSeq : Nat) : Promotion Data :=
  { promotion with
    parkingLotIndex := (promotion.txns.filter fun entry => minSeq < entry.1).values.foldl park
      promotion.parkingLotIndex }

end Promotion

/-- Sort the transactions of an account into ready and parked ones. -/
def processReadyTransactions (crsnOrSeqno : AccountSequenceInfo) : TransactionStore Data Hash :=
  match store.transactions.get? address with
  | some txns =>
    let promotion : Promotion Data :=
      ⟨txns, store.priorityIndex, store.timelineIndex, store.parkingLotIndex⟩
    let (promotion, minSeq) := promotion.promoteReady crsnOrSeqno
    let promotion := promotion.parkBehind minSeq
    { store with
      transactions := store.transactions.insert address promotion.txns
      priorityIndex := promotion.priorityIndex
      timelineIndex := promotion.timelineIndex
      parkingLotIndex := promotion.parkingLotIndex }
  | none => store

/-!
### Insertion and removal
-/

end

def store (store : TransactionStore Data Hash) (txns : AccountTransactions Data)
    (txn : MempoolTransaction Data) : TransactionStore Data Hash :=
  { store with
    systemTtlIndex := store.systemTtlIndex.insert txn
    expirationTimeIndex := store.expirationTimeIndex.insert txn
    hashIndex := store.hashIndex.insert (hasher.hash txn.txn) txn.pointer
    transactions := store.transactions.insert txn.txn.sender
      (txns.insert txn.sequenceInfo.transactionSequenceNumber txn) }

variable (choice : Nat) (store : TransactionStore Data Hash)
  (txn : MempoolTransaction Data)

/-- Insert a transaction whose place is free. -/
def insertNew : MempoolStatus × TransactionStore Data Hash :=
  let address := txn.txn.sender
  let minSeq := txn.sequenceInfo.accountSequenceNumberType.minSeq
  let store := evict hasher choice store txn minSeq
  if store.capacity ≤ store.systemTtlIndex.size then
    (⟨.mempoolIsFull, s!"mempool size: {store.systemTtlIndex.size}, capacity: {store.capacity}"⟩,
      store)
  else
    let store :=
      { store with
        transactions := store.transactions.orInsert address .empty }
    let store := cleanCommittedTransactions hasher store address minSeq
    match store.transactions.get? address with
    | some txns =>
      if store.capacityPerUser ≤ txns.size then
        (⟨.tooManyTransactions,
          s!"txns length: {txns.size} capacity per user: {store.capacityPerUser}"⟩, store)
      else
        (⟨.accepted, ""⟩,
          (TransactionStore.store hasher store txns txn).processReadyTransactions
            address txn.sequenceInfo.accountSequenceNumberType)
    | none =>
      (⟨.accepted, ""⟩,
        store.processReadyTransactions address txn.sequenceInfo.accountSequenceNumberType)

variable [DecidableEq Data]

/-- Whether a transaction only raises the gas price of another one. -/
def raisesGasPrice (currentVersion txn : MempoolTransaction Data) : Bool :=
  currentVersion.txn.maxGasAmount = txn.txn.maxGasAmount ∧
    currentVersion.txn.payload = txn.txn.payload ∧
    currentVersion.txn.expirationTimestampSecs = txn.txn.expirationTimestampSecs ∧
    currentVersion.txn.gasUnitPrice < txn.txn.gasUnitPrice

/-- Insert a transaction, which may raise the gas price of one that is there. -/
def insert (choice : Nat) (store : TransactionStore Data Hash)
    (txn : MempoolTransaction Data) : MempoolStatus × TransactionStore Data Hash :=
  let address := txn.txn.sender
  let sequenceNumber := txn.sequenceInfo.transactionSequenceNumber
  match store.getMempoolTxn address sequenceNumber with
  | some currentVersion =>
    if currentVersion.txn = txn.txn then
      (⟨.accepted, ""⟩, store)
    else if raisesGasPrice currentVersion txn = true then
      insertNew hasher choice (removeTxn hasher store address sequenceNumber) txn
    else
      (⟨.invalidUpdate, "Transaction already in mempool"⟩, store)
  | none => insertNew hasher choice store txn

omit [DecidableEq Data]

/-- Handle a committed transaction. -/
def commitTransaction (account : AccountAddress) (accountSequenceNumber : AccountSequenceInfo) :
    TransactionStore Data Hash :=
  (cleanCommittedTransactions hasher store account
    accountSequenceNumber.minSeq).processReadyTransactions account accountSequenceNumber

/-- Handle a rejected transaction: the account starts again. -/
def rejectTransaction (account : AccountAddress) : TransactionStore Data Hash :=
  match store.transactions.get? account with
  | some txns =>
    txns.values.foldl (indexRemove hasher)
      { store with transactions := store.transactions.erase account }
  | none => store

/-!
### Garbage collection
-/

/-- Park a transaction that was ready. -/
def unready : TransactionStore Data Hash :=
  { store with
    parkingLotIndex := store.parkingLotIndex.insert txn
    priorityIndex := store.priorityIndex.removeTxn txn
    timelineIndex := store.timelineIndex.remove txn }

/-- Whether a number is between an expired one and the next expired one. -/
def inParkRange (key : TTLOrderingKey) (next : Option TTLOrderingKey)
    (sequenceNumber : Nat) : Bool :=
  decide (key.sequenceNumber < sequenceNumber) &&
    match next with
    | some nextKey =>
      decide (nextKey.address = key.address → sequenceNumber < nextKey.sequenceNumber)
    | none => true

/-- Remove an expired transaction and park those up to the next expired one. -/
def removeExpired (key : TTLOrderingKey) (next : Option TTLOrderingKey) :
    TransactionStore Data Hash :=
  match store.transactions.get? key.address with
  | some txns =>
    let behind := txns.filter fun entry => inParkRange key next entry.1
    removeTxn hasher (behind.values.foldl unready store) key.address key.sequenceNumber
  | none => store

/-- Remove expired transactions one after the other. -/
def removeAllExpired (store : TransactionStore Data Hash) :
    List TTLOrderingKey → TransactionStore Data Hash
  | [] => store
  | key :: keys => removeAllExpired (removeExpired hasher store key keys.head?) keys

/-- Sort by account and sequence number. -/
def sortByPointer (keys : List TTLOrderingKey) : List TTLOrderingKey :=
  keys.mergeSort fun first second =>
    toLex (first.address, first.sequenceNumber) ≤ toLex (second.address, second.sequenceNumber)

/-- Remove what has expired by the clock of the node. -/
def gcBySystemTtl (now : Nat) (store : TransactionStore Data Hash) : TransactionStore Data Hash :=
  let (gcTxns, systemTtlIndex) := store.systemTtlIndex.gc now
  removeAllExpired hasher { store with systemTtlIndex } (sortByPointer gcTxns)

/-- Remove what has expired by the choice of the client. -/
def gcByExpirationTime (blockTime : Nat) (store : TransactionStore Data Hash) :
    TransactionStore Data Hash :=
  let (gcTxns, expirationTimeIndex) := store.expirationTimeIndex.gc blockTime
  removeAllExpired hasher { store with expirationTimeIndex } (sortByPointer gcTxns)

end TransactionStore

end Store

end Diem.CoreMempool
