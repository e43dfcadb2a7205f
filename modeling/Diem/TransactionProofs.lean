import Diem.LedgerInfo
import Diem.Position

namespace Diem

open MerkleForest Fallible

/-!
# Proofs of transaction lists

A list of transactions, or of their outputs, comes with the transaction infos of
consecutive versions and with an `AccumulatorRangeProof` that the infos are in the ledger
(`types/src/proof/definition.rs`, `types/src/transaction/mod.rs`).

Transactions and events are only hashed, so their types are parameters.  The status of a
transaction that is kept comes from the virtual machine; only its equality is read.
-/

/-- The status of a transaction that is kept. -/
structure KeptVMStatus where
  code : Nat
  deriving DecidableEq, Repr

/-- What the ledger stores of a transaction. -/
structure TransactionInfo where
  gasUsed : Nat
  status : KeptVMStatus
  transactionHash : HashValue
  eventRootHash : HashValue
  stateChangeHash : HashValue
  stateCheckpointHash : Option HashValue
  deriving DecidableEq

/-- The hash functions of the ledger. -/
structure LedgerHashing (Transaction ContractEvent : Type) where
  transactionAccumulator : Hasher HashValue
  eventAccumulator : Hasher HashValue
  hashTransactionInfo : TransactionInfo → HashValue
  hashTransaction : Transaction → HashValue
  hashEvent : ContractEvent → HashValue

/-- The siblings on the left and on the right of a range of leaves, the lowest first. -/
structure AccumulatorRangeProof (Hash : Type) where
  leftSiblings : List Hash
  rightSiblings : List Hash
  deriving DecidableEq

namespace AccumulatorRangeProof

variable {Hash : Type} (hasher : Hasher Hash)

/-- The parents of pairs of hashes, and the hash that is left over. -/
def pairUp : List Hash → List Hash × Option Hash
  | [] => ([], none)
  | [remainder] => ([], some remainder)
  | leftHash :: rightHash :: rest =>
    let (parents, remainder) := pairUp rest
    (hasher.internal leftHash rightHash :: parents, remainder)

/--
Combine the first hash with a sibling on the left if it is a right child.  Returns the
parents so far, the children and the left siblings that remain.
-/
def combineFirst (firstPos : Position) (currentHashes leftSiblings : List Hash) :
    Fallible (List Hash × List Hash × List Hash) :=
  if firstPos.isRightChild then
    match leftSiblings, currentHashes with
    | [], _ => .error (.error "First child is a right child, but missing sibling on the left.")
    | _ :: _, [] => .error (.panic "The first leaf must exist.")
    | leftHash :: leftSiblings, rightHash :: children =>
      .ok ([hasher.internal leftHash rightHash], children, leftSiblings)
  else
    .ok ([], currentHashes, leftSiblings)

/--
Combine the last hash with a sibling on the right if it has no partner.  Returns its
parent and the right siblings that remain.
-/
def combineLast (remainder : Option Hash) (rightSiblings : List Hash) :
    Fallible (List Hash × List Hash) :=
  match remainder, rightSiblings with
  | none, _ => .ok ([], rightSiblings)
  | some _, [] => .error (.error "Last child is a left child, but missing sibling on the right.")
  | some leftHash, rightHash :: rightSiblings =>
    .ok ([hasher.internal leftHash rightHash], rightSiblings)

/-- The hashes of the next level, with the siblings that remain. -/
def nextLevel (firstPos : Position) (currentHashes leftSiblings rightSiblings : List Hash) :
    Fallible (List Hash × List Hash × List Hash) := do
  let (first, children, leftSiblings) ← combineFirst hasher firstPos currentHashes leftSiblings
  let (paired, remainder) := pairUp hasher children
  let (last, rightSiblings) ← combineLast hasher remainder rightSiblings
  return (first ++ paired ++ last, leftSiblings, rightSiblings)

/--
Reduce the hashes level by level, until one is left and the siblings are used up.  Every
level lowers the number of hashes and siblings, which bounds the iterations.
-/
def reduceLoop :
    Nat → Position → List Hash → List Hash → List Hash → Fallible Hash
  | 0, _, _, _, _ => .error (.panic "the levels of the proof do not end")
  | fuel + 1, firstPos, currentHashes, leftSiblings, rightSiblings =>
    if currentHashes.length > 1 ∨ leftSiblings ≠ [] ∨ rightSiblings ≠ [] then do
      let (parentHashes, leftSiblings, rightSiblings) ←
        nextLevel hasher firstPos currentHashes leftSiblings rightSiblings
      reduceLoop fuel firstPos.parent parentHashes leftSiblings rightSiblings
    else
      expect currentHashes.head? "index out of bounds: the len is 0 but the index is 0"

/-- The leaves are in the accumulator, starting from the given index. -/
def verify [DecidableEq Hash] (hasher : Hasher Hash) (proof : AccumulatorRangeProof Hash)
    (expectedRootHash : Hash) (firstLeafIndex : Option Nat)
    (leafHashes : List Hash) : Fallible Unit :=
  match firstLeafIndex with
  | none => do
      ensure (leafHashes = [])
        "first_leaf_index indicated empty list while leaf_hashes is not empty."
      ensure (proof.leftSiblings.isEmpty && proof.rightSiblings.isEmpty) "No siblings are needed."
  | some firstLeafIndex => do
      ensure (proof.leftSiblings.length ≤ maxAccumulatorProofDepth)
        (s!"Proof has more than {maxAccumulatorProofDepth} " ++
          s!"({proof.leftSiblings.length}) left siblings.")
      ensure (proof.rightSiblings.length ≤ maxAccumulatorProofDepth)
        (s!"Proof has more than {maxAccumulatorProofDepth} " ++
          s!"({proof.rightSiblings.length}) right siblings.")
      ensure (leafHashes ≠ [])
        ("leaf_hashes is empty while first_leaf_index indicated non-empty " ++ "list.")
      let rootHash ←
        reduceLoop hasher
          (leafHashes.length + proof.leftSiblings.length + proof.rightSiblings.length)
          (.fromLeafIndex firstLeafIndex) leafHashes
          proof.leftSiblings proof.rightSiblings
      ensure (rootHash = expectedRootHash) "Root hashes do not match."

end AccumulatorRangeProof

/-- Transaction infos of consecutive versions, with a proof that they are in the ledger. -/
structure TransactionInfoListWithProof where
  ledgerInfoToTransactionInfosProof : AccumulatorRangeProof HashValue
  transactionInfos : List TransactionInfo
  deriving DecidableEq

variable {Transaction ContractEvent : Type}
  (hashing : LedgerHashing Transaction ContractEvent)

namespace TransactionInfoListWithProof

variable (list : TransactionInfoListWithProof)

/-- The infos are in the ledger, starting from the given version. -/
def verify (ledgerInfo : LedgerInfo) (firstTransactionInfoVersion : Option Nat) : Fallible Unit :=
  list.ledgerInfoToTransactionInfosProof.verify hashing.transactionAccumulator
    ledgerInfo.transactionAccumulatorHash firstTransactionInfoVersion
    (list.transactionInfos.map hashing.hashTransactionInfo)

/--
The infos continue the local ledger.  Returns how many of them are in the local ledger
already.
-/
def verifyExtendsLedger (numTxnsInLedger : Nat) (rootHash : HashValue)
    (firstTransactionInfoVersion : Option Nat) : Fallible Nat :=
  match firstTransactionInfoVersion with
  | none => do
      ensure list.transactionInfos.isEmpty "Condition failed: `self.transaction_infos.is_empty()`"
      return 0
  | some firstVersion => do
      ensure (firstVersion ≤ numTxnsInLedger)
        (s!"Transaction list too new. Expected version: {numTxnsInLedger}. " ++
          s!"First transaction version: {firstVersion}.")
      let numOverlapTxns := numTxnsInLedger - firstVersion
      if numOverlapTxns > list.transactionInfos.length then
        return list.transactionInfos.length
      else
        let accuBeforeList ←
          InMemoryAccumulator.new hashing.transactionAccumulator
            list.ledgerInfoToTransactionInfosProof.leftSiblings.reverse
            firstVersion
        let accuFromProof ←
          accuBeforeList.append hashing.transactionAccumulator
            ((list.transactionInfos.take numOverlapTxns).map hashing.hashTransactionInfo)
        ensure (accuFromProof.rootHash = rootHash)
          ("Fork happens because the current synced_trees doesn't match the " ++
            "txn list provided.")
        return numOverlapTxns

end TransactionInfoListWithProof

/-- How an optional version is printed. -/
def showVersion : Option Nat → String
  | none => "None"
  | some version => s!"Some({version})"

/-- Events hash to the root that the transaction info carries. -/
def verifyEventsAgainstRootHash (events : List ContractEvent) (transactionInfo : TransactionInfo) :
    Fallible Unit := do
  let accumulator ←
    InMemoryAccumulator.fromLeaves hashing.eventAccumulator (events.map hashing.hashEvent)
  ensure (accumulator.rootHash = transactionInfo.eventRootHash)
    ("The event root hash calculated doesn't match that carried on the " ++ "transaction info!")

/-- Transactions of consecutive versions, perhaps with their events. -/
structure TransactionListWithProof (Transaction ContractEvent : Type) where
  transactions : List Transaction
  events : Option (List (List ContractEvent))
  firstTransactionVersion : Option Nat
  proof : TransactionInfoListWithProof

namespace TransactionListWithProof

/-- A transaction has the hash that its info carries. -/
def verifyTransactionHash (entry : Transaction × TransactionInfo) : Fallible Unit :=
  ensure (hashing.hashTransaction entry.1 = entry.2.transactionHash)
    "The hash of transaction does not match the transaction info in proof."

variable (list : TransactionListWithProof Transaction ContractEvent)

/-- The event lists, if there are any, hash to the roots that the infos carry. -/
def verifyEvents : Fallible Unit :=
  match list.events with
  | none => .ok ()
  | some eventLists => do
      ensure (eventLists.length = list.transactions.length)
        (s!"The length of event_lists ({eventLists.length}) does not match " ++
          s!"the number of transactions ({list.transactions.length}).")
      forM (eventLists.zip list.proof.transactionInfos) fun entry =>
        verifyEventsAgainstRootHash hashing entry.1 entry.2

/-- The transactions are in the ledger, starting from the given version. -/
def verify (ledgerInfo : LedgerInfo) (firstTransactionVersion : Option Nat) : Fallible Unit := do
  ensure (list.firstTransactionVersion = firstTransactionVersion)
    (s!"First transaction version " ++
      s!"({showVersion list.firstTransactionVersion}) doesn't match given " ++
      s!"version ({showVersion firstTransactionVersion}).")
  ensure (list.proof.transactionInfos.length = list.transactions.length)
    (s!"The number of TransactionInfo objects " ++
      s!"({list.proof.transactionInfos.length}) does not match the number " ++
      s!"of transactions ({list.transactions.length}).")
  forM (list.transactions.zip list.proof.transactionInfos) (verifyTransactionHash hashing)
  list.proof.verify hashing ledgerInfo list.firstTransactionVersion
  list.verifyEvents hashing

end TransactionListWithProof

/-- What is to become of a transaction after its execution. -/
inductive OutputStatus where
  | discard (code : Nat)
  | keep (status : KeptVMStatus)
  | retry
  deriving DecidableEq, Repr

/-- The result of executing a transaction; its writes are not checked by the proof. -/
structure TransactionOutput (ContractEvent : Type) where
  events : List ContractEvent
  gasUsed : Nat
  status : OutputStatus

/-- Transactions of consecutive versions with their outputs. -/
structure TransactionOutputListWithProof (Transaction ContractEvent : Type) where
  transactionsAndOutputs : List (Transaction × TransactionOutput ContractEvent)
  firstTransactionOutputVersion : Option Nat
  proof : TransactionInfoListWithProof

namespace TransactionOutputListWithProof

/-- A transaction and its output fit the transaction info. -/
def verifyOutput (entry : (Transaction × TransactionOutput ContractEvent) × TransactionInfo) :
    Fallible Unit := do
  let ((transaction, output), info) := entry
  verifyEventsAgainstRootHash hashing output.events info
  ensure (output.gasUsed = info.gasUsed)
    ("The gas used in transaction output does not match the transaction info " ++
      s!"in proof. Gas used in transaction output: {output.gasUsed}. " ++
      s!"Gas used in txn_info: {info.gasUsed}.")
  ensure (output.status = .keep info.status)
    ("The execution status of transaction output does not match the " ++
      "transaction info in proof.")
  ensure (hashing.hashTransaction transaction = info.transactionHash)
    "The transaction hash does not match the hash in transaction info."

/-- The outputs are in the ledger, starting from the given version. -/
def verify (list : TransactionOutputListWithProof Transaction ContractEvent)
    (ledgerInfo : LedgerInfo) (firstTransactionOutputVersion : Option Nat) : Fallible Unit := do
  ensure (list.firstTransactionOutputVersion = firstTransactionOutputVersion)
    (s!"First transaction and output version " ++
      s!"({showVersion list.firstTransactionOutputVersion}) doesn't match " ++
      s!"given version ({showVersion firstTransactionOutputVersion}).")
  ensure (list.proof.transactionInfos.length = list.transactionsAndOutputs.length)
    (s!"The number of TransactionInfo objects " ++
      s!"({list.proof.transactionInfos.length}) does not match the number " ++
      s!"of transactions and outputs ({list.transactionsAndOutputs.length}).")
  forM (list.transactionsAndOutputs.zip list.proof.transactionInfos) (verifyOutput hashing)
  list.proof.verify hashing ledgerInfo list.firstTransactionOutputVersion

end TransactionOutputListWithProof

end Diem
