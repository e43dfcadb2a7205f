import Diem.MerkleAccumulator
import Diem.TrustedState

namespace Diem

open MerkleAccumulator (StoredNode)
open Fallible

/-!
# The ledger store

What a node stores about its ledger (`storage/diemdb/src/ledger_store/mod.rs`): the last
ledger info of each epoch, the epochs by the versions that end them and the nodes of the
transaction accumulator.  From these it answers requests for state proofs
(`storage/diemdb/src/lib.rs`).
-/

/-- The tables of the ledger and the latest ledger info. -/
structure LedgerStore where
  ledgerInfos : OrderedMap Nat LedgerInfoWithSignatures
  epochByVersion : OrderedMap Nat Nat
  transactionAccumulator : List (StoredNode HashValue)
  latestLedgerInfo : Option LedgerInfoWithSignatures

namespace LedgerStore

/-- The limit on epoch changes in one answer. -/
def maxNumEpochEndingLedgerInfo : Nat := 100

def empty : LedgerStore where
  ledgerInfos := .empty
  epochByVersion := .empty
  transactionAccumulator := []
  latestLedgerInfo := none

variable (store : LedgerStore)

/-- Read access to the nodes of the accumulator. -/
def reader : HashReader HashValue :=
  MerkleAccumulator.readerOf store.transactionAccumulator

def getEpoch (version : Nat) : Fallible Nat :=
  -- the last epoch that ends at the version or before
  match (store.epochByVersion.filter fun entry => entry.1 ≤ version).entries.getLast? with
  | none => .ok 0
  | some (epochEndVersion, epoch) => do
      ensure (epochEndVersion ≤ version)
        (s!"DB corruption: looking for epoch for version {version}, got " ++
          s!"epoch {epoch} ends at version {epochEndVersion}")
      return if epochEndVersion < version then epoch + 1 else epoch

def getLatestLedgerInfo : Fallible LedgerInfoWithSignatures :=
  okOr store.latestLedgerInfo "Genesis LedgerInfo not found."

/-- The epoch changes that an iterator over the ledger infos gives. -/
def epochEndingLedgerInfos (endEpoch : Nat) :
    List (Nat × LedgerInfoWithSignatures) → (nextEpoch : Nat) →
    Fallible (List LedgerInfoWithSignatures)
  | [], _ => .ok []
  | (epoch, signed) :: rest, nextEpoch =>
    if nextEpoch ≥ endEpoch then
      .ok []
    else if signed.ledgerInfo.endsEpoch = false then
      .ok []
    else do
      ensure (epoch = nextEpoch) "Epochs are not consecutive."
      let others ← epochEndingLedgerInfos endEpoch rest (nextEpoch + 1)
      return signed :: others

/-- The epoch changes from one epoch up to another one. -/
def getEpochEndingLedgerInfoIter (startEpoch endEpoch : Nat) :
    Fallible (List LedgerInfoWithSignatures) :=
  epochEndingLedgerInfos endEpoch
    (store.ledgerInfos.filter fun entry => startEpoch ≤ entry.1).entries
    startEpoch

def missingEpoch (startEpoch : Nat) (signed : List LedgerInfoWithSignatures) : Nat :=
  match signed.getLast? with
  | some last => last.ledgerInfo.nextBlockEpoch
  | none => startEpoch

/-- At most `limit` epoch changes, and whether there are more. -/
def getEpochEndingLedgerInfosImpl (startEpoch endEpoch limit : Nat) :
    Fallible (List LedgerInfoWithSignatures × Bool) := do
  ensure (startEpoch ≤ endEpoch) s!"Bad epoch range [{startEpoch}, {endEpoch})"
  let latest ← store.getLatestLedgerInfo
  let latestEpoch := latest.ledgerInfo.nextBlockEpoch
  ensure (endEpoch ≤ latestEpoch)
    ("Unable to provide epoch change ledger info for still open epoch. " ++
      s!"asked upper bound: {endEpoch}, last sealed epoch: " ++
      s!"{latestEpoch - 1}")
  let more := decide (endEpoch - startEpoch > limit)
  let pagingEpoch := if more = true then startEpoch + limit else endEpoch
  let signed ← store.getEpochEndingLedgerInfoIter startEpoch pagingEpoch
  ensure (signed.length = pagingEpoch - startEpoch)
    ("DB corruption: missing epoch ending ledger info for epoch " ++
      s!"{missingEpoch startEpoch signed}")
  return (signed, more)

/-- The subtrees that extend the ledger of a client to a version. -/
def getConsistencyProof (clientKnownVersion : Option Nat) (ledgerVersion : Nat) :
    Fallible AccumulatorConsistencyProof := do
  let clientKnownNumLeaves :=
    match clientKnownVersion with
    | some version => min (version + 1) (2 ^ 64 - 1)
    | none => 0
  let ledgerNumLeaves := min (ledgerVersion + 1) (2 ^ 64 - 1)
  let subtrees ←
    MerkleAccumulator.getConsistencyProof store.reader ledgerNumLeaves clientKnownNumLeaves
  return { subtrees }

/-- The epoch changes that a client needs. -/
def getEpochChangeProof (knownEpoch endEpoch : Nat) : Fallible EpochChangeProof :=
  if knownEpoch < endEpoch then do
    let (ledgerInfoWithSigs, more) ←
      store.getEpochEndingLedgerInfosImpl knownEpoch endEpoch maxNumEpochEndingLedgerInfo
    return { ledgerInfoWithSigs, more }
  else
    .ok { ledgerInfoWithSigs := [], more := false }

/--
The ledger info up to which the client can verify a consistency proof: the last epoch
change of the answer if there are more to come.
-/
def verifiableLedgerInfo (ledgerInfo : LedgerInfo) (epochChangeProof : EpochChangeProof)
    (knownEpoch endEpoch : Nat) : Fallible LedgerInfo :=
  if epochChangeProof.more = true then do
    let last ←
      okOr epochChangeProof.ledgerInfoWithSigs.getLast?
        ("No epoch changes despite claiming the client needs to sync more " ++
          s!"epochs: known_epoch={knownEpoch}, end_epoch={endEpoch}")
    return last.ledgerInfo
  else
    .ok ledgerInfo

/-- The state proof for a client at a version, up to a ledger info. -/
def getStateProofWithLedgerInfo (knownVersion : Nat) (latest : LedgerInfoWithSignatures) :
    Fallible StateProof := do
  ensure (knownVersion ≤ latest.ledgerInfo.version)
    (s!"Client known_version {knownVersion} larger than ledger version " ++
      s!"{latest.ledgerInfo.version}.")
  let knownEpoch ← store.getEpoch knownVersion
  let endEpoch := latest.ledgerInfo.nextBlockEpoch
  let epochChanges ← store.getEpochChangeProof knownEpoch endEpoch
  let verifiableLi ← verifiableLedgerInfo latest.ledgerInfo epochChanges knownEpoch endEpoch
  let consistencyProof ← store.getConsistencyProof (some knownVersion) verifiableLi.version
  return { latestLiWSigs := latest, epochChanges, consistencyProof }

/-- The state proof for a client at a version. -/
def getStateProof (knownVersion : Nat) : Fallible StateProof := do
  let latest ← store.getLatestLedgerInfo
  store.getStateProofWithLedgerInfo knownVersion latest

/-!
## Writing
-/

def putLedgerInfo (signed : LedgerInfoWithSignatures) : LedgerStore :=
  { store with
    epochByVersion :=
      if signed.ledgerInfo.endsEpoch = true then
        store.epochByVersion.insert signed.ledgerInfo.version signed.ledgerInfo.epoch
      else
        store.epochByVersion
    ledgerInfos := store.ledgerInfos.insert signed.ledgerInfo.epoch signed
    latestLedgerInfo := some signed }

/-- Check that a ledger info belongs to the transactions of a batch. -/
def checkApplicable (firstVersion numTxns : Nat)
    (ledgerInfoWithSigs : Option LedgerInfoWithSignatures) : Fallible Unit :=
  match ledgerInfoWithSigs with
  | some signed =>
    ensure (signed.ledgerInfo.version + 1 = firstVersion + numTxns)
      (s!"Transaction batch not applicable: first_version " ++
        s!"{firstVersion}, num_txns {numTxns}, last_version " ++
        s!"{signed.ledgerInfo.version}")
  | none => .ok ()

/-- Store the ledger info of a batch if it has the root hash. -/
def putVerified (newRootHash : HashValue)
    (ledgerInfoWithSigs : Option LedgerInfoWithSignatures) : Fallible LedgerStore :=
  match ledgerInfoWithSigs with
  | some signed => do
      ensure (newRootHash = signed.ledgerInfo.transactionAccumulatorHash)
        "Root hash calculated doesn't match expected."
      return store.putLedgerInfo signed
  | none => .ok store

/--
Save transactions, of which only the hashes of their infos concern the ledger, and a
ledger info.
-/
def saveTransactions (hasher : MerkleForest.Hasher HashValue) (store : LedgerStore)
    (txnInfoHashes : List HashValue) (firstVersion : Nat)
    (ledgerInfoWithSigs : Option LedgerInfoWithSignatures) : Fallible LedgerStore := do
  ensure (ledgerInfoWithSigs.isSome = true ∨ 0 < txnInfoHashes.length)
    "txns_to_commit is empty while ledger_info_with_sigs is None."
  checkApplicable firstVersion txnInfoHashes.length ledgerInfoWithSigs
  let (newRootHash, writes) ←
    MerkleAccumulator.append hasher store.reader firstVersion txnInfoHashes
  putVerified
    { store with
      transactionAccumulator := store.transactionAccumulator ++ writes }
    newRootHash ledgerInfoWithSigs

end LedgerStore

end Diem
