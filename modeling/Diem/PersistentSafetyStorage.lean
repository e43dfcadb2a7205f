import Diem.ProposalVerification
import Diem.Stateful

namespace Diem

/-!
# The storage of the safety rules

`PersistentSafetyStorage` keeps the safety data, the waypoint, the account of the
validator and its keys in a secure storage backend, with a copy of the safety data
in memory (`consensus/safety-rules/src/persistent_safety_storage.rs`).

The backend may fail any call without effect.  Which calls fail is part of its
state: `faults` holds the answers to the coming reads and writes, `keyFaults` those
to the coming uses of a key, and calls beyond the lists succeed.
-/

/-- How secure storage fails. -/
inductive StorageError where
  | entropyError (message : String)
  | internalError (message : String)
  | keyAlreadyExists (key : String)
  | keyNotSet (key : String)
  | permissionDenied
  | serializationError (message : String)
  | keyVersionNotFound (key : String) (version : String)
  deriving DecidableEq, Repr

namespace StorageError

def toString : StorageError → String
  | .entropyError message => s!"Entropy error: {message}"
  | .internalError message => s!"Internal error: {message}"
  | .keyAlreadyExists key => s!"Key already exists: {key}"
  | .keyNotSet key => s!"Key not set: {key}"
  | .permissionDenied => "Permission denied"
  | .serializationError message => s!"Serialization error: {message}"
  | .keyVersionNotFound key version =>
    s!"Key version not found, key name: {key}, version: {version}"

end StorageError

/-- How safety rules refuse. -/
inductive SafetyRulesError where
  | incorrectEpoch (provided expected : Nat)
  | incorrectRound (round : Nat)
  | incorrectLastVotedRound (provided lastVoted : Nat)
  | incorrectPreferredRound (provided preferred : Nat)
  | invalidAccumulatorExtension (message : String)
  | invalidEpochChangeProof (message : String)
  | internalError (message : String)
  | invalidLedgerInfo
  | invalidProposal (message : String)
  | invalidQuorumCertificate (message : String)
  | notInitialized (name : String)
  | secureStorageMissingDataError (message : String)
  | secureStorageUnexpectedError (message : String)
  | validatorKeyNotFound (message : String)
  | validatorNotInSet (address : String)
  | voteProposalSignatureNotFound
  | notSafeToVote (round qcRound tcRound hqcRound : Nat)
  | notSafeToTimeout (round qcRound tcRound oneChainRound : Nat)
  | invalidTimeoutCertificate (message : String)
  | inconsistentExecutionResult (ordered executed : BlockInfo)
  | invalidOrderedLedgerInfo (info : LedgerInfo)
  | waypointOutOfDate (previousVersion updatedVersion currentEpoch providedEpoch : Nat)
  | invalidTimeout (message : String)
  deriving DecidableEq

namespace SafetyRulesError

/-- The text of an error of the safety rules; blocks are not written out. -/
def toString : SafetyRulesError → String
  | .incorrectEpoch provided expected =>
    s!"Provided epoch, {provided}, does not match expected epoch, {expected}"
  | .incorrectRound round => s!"block has next round that wraps around: {round}"
  | .incorrectLastVotedRound provided lastVoted =>
    s!"Provided round, {provided}, is incompatible with last voted round, " ++ s!"{lastVoted}"
  | .incorrectPreferredRound provided preferred =>
    s!"Provided round, {provided}, is incompatible with preferred round, " ++ s!"{preferred}"
  | .invalidAccumulatorExtension message =>
    s!"Unable to verify that the new tree extends the parent: {message}"
  | .invalidEpochChangeProof message => s!"Invalid EpochChangeProof: {message}"
  | .internalError message => s!"Internal error: {message}"
  | .invalidLedgerInfo => "No next_epoch_state specified in the provided Ledger Info"
  | .invalidProposal message => s!"Invalid proposal: {message}"
  | .invalidQuorumCertificate message => s!"Invalid QC: {message}"
  | .notInitialized name => s!"{name} is not set, SafetyRules is not initialized"
  | .secureStorageMissingDataError message => s!"Data not found in secure storage: {message}"
  | .secureStorageUnexpectedError message =>
    s!"Unexpected error returned by secure storage: {message}"
  | .validatorKeyNotFound message => s!"Validator key not found: {message}"
  | .validatorNotInSet address =>
    "The validator is not in the validator set. Address not in set: " ++ address
  | .voteProposalSignatureNotFound => "Vote proposal missing expected signature"
  | .notSafeToVote round qcRound tcRound hqcRound =>
    s!"Does not satisfy 2-chain voting rule. Round {round}, " ++
      s!"Quorum round {qcRound}, TC round {tcRound},  " ++
      s!"HQC round in TC {hqcRound}"
  | .notSafeToTimeout round qcRound tcRound oneChainRound =>
    s!"Does not satisfy 2-chain timeout rule. Round {round}, " ++
      s!"Quorum round {qcRound}, TC round {tcRound}, " ++
      s!"one-chain round {oneChainRound}"
  | .invalidTimeoutCertificate message => s!"Invalid TC: {message}"
  | .inconsistentExecutionResult _ _ =>
    "Inconsistent Execution Result: Ordered BlockInfo doesn't match " ++ "executed BlockInfo."
  | .invalidOrderedLedgerInfo _ =>
    "Invalid Ordered LedgerInfoWithSignatures: Empty or at least one of " ++
      "executed_state_id, version, or epoch_state are not dummy value"
  | .waypointOutOfDate previousVersion updatedVersion current provided =>
    s!"Waypoint out of date: Previous waypoint version {previousVersion}, " ++
      s!"updated version {updatedVersion}, current epoch {current}, " ++
      s!"provided epoch {provided}"
  | .invalidTimeout message => s!"Invalid Timeout: {message}"

end SafetyRulesError

/-- How a call of the safety rules ends without a value. -/
inductive Abort where
  | error (failure : SafetyRulesError)
  | panic (message : String)
  deriving DecidableEq

namespace Abort

/-- Storage errors as the safety rules report them; a denied permission panics. -/
def ofStorage : StorageError → Abort
  | .permissionDenied =>
    .panic ("A permission error was thrown: PermissionDenied. " ++
      "Maybe the storage token needs to be renewed?")
  | .keyVersionNotFound key version =>
    .error (.secureStorageMissingDataError (StorageError.keyVersionNotFound key version).toString)
  | .keyNotSet key => .error (.secureStorageMissingDataError (StorageError.keyNotSet key).toString)
  | failure => .error (.secureStorageUnexpectedError failure.toString)

/-- Report the error of a check under a name of the safety rules. -/
def wrap {α : Type} (name : String → SafetyRulesError) (result : Fallible α) : Except Abort α :=
  match result with
  | .ok value => .ok value
  | .error (.error message) => .error (.error (name message))
  | .error (.panic message) => .error (.panic message)

@[simp] theorem wrap_eq_ok_iff {α : Type} {name : String → SafetyRulesError} {result : Fallible α}
    {value : α} : wrap name result = .ok value ↔ result = .ok value := by
  rcases result with (_ | _) | _ <;> simp [wrap]

end Abort

/-- A secure storage backend with the values the safety rules keep in it. -/
structure SecureStorage where
  safetyData : SafetyData
  waypoint : Waypoint
  ownerAccount : AccountAddress
  consensusKeys : List PublicKey
  executionKey : PublicKey
  faults : List (Option StorageError)
  keyFaults : List (Option StorageError)
  deriving DecidableEq

namespace SecureStorage

/-- A read or a write of the backend, which may fail without effect. -/
def call {α : Type} (value : SecureStorage → α) (effect : SecureStorage → SecureStorage) :
    Stateful SecureStorage StorageError α :=
  fun store =>
    match store.faults with
    | [] => (.ok (value store), effect store)
    | none :: rest => (.ok (value store), effect { store with faults := rest })
    | some failure :: rest => (.error failure, { store with faults := rest })

def get {α : Type} (value : SecureStorage → α) : Stateful SecureStorage StorageError α :=
  call value fun store => store

/-- Write a value. -/
def set (effect : SecureStorage → SecureStorage) : Stateful SecureStorage StorageError Unit :=
  call (fun _ => ()) effect

/-- Look for the version of the consensus key that has the given public key. -/
def exportPrivateKeyForVersion (version : PublicKey) :
    Stateful SecureStorage StorageError PublicKey :=
  fun store =>
    let next := { store with keyFaults := store.keyFaults.tail }
    match store.keyFaults.head?.join with
    | some failure => (.error failure, next)
    | none =>
      if version ∈ store.consensusKeys then
        (.ok version, next)
      else
        (.error (.keyVersionNotFound "consensus" s!"{version.bytes}"), next)

/-- Sign with the version of the consensus key that has the given public key. -/
def signUsingVersion (crypto : Crypto) (version : PublicKey) (message : Message) :
    Stateful SecureStorage StorageError Signature := do
  let privateKey ← exportPrivateKeyForVersion version
  return crypto.sign privateKey message

end SecureStorage

/-- The storage of the safety rules. -/
structure PersistentSafetyStorage where
  enableCachedSafetyData : Bool
  cachedSafetyData : Option SafetyData
  internalStore : SecureStorage
  deriving DecidableEq

namespace PersistentSafetyStorage

/-- Storage over a backend that already holds data. -/
def new (internalStore : SecureStorage)
    (enableCachedSafetyData : Bool) : PersistentSafetyStorage where
  enableCachedSafetyData
  cachedSafetyData := none
  internalStore

/-- The safety data of a validator that starts from genesis. -/
def initialSafetyData : SafetyData where
  epoch := 1
  lastVotedRound := 0
  preferredRound := 0
  oneChainRound := 0
  lastVote := none

/-- Storage over a backend whose values are written for the first time. -/
def initializeStore (internalStore : SecureStorage) (author : AccountAddress)
    (consensusKey executionKey : PublicKey) (waypoint : Waypoint)
    (enableCachedSafetyData : Bool) : PersistentSafetyStorage where
  enableCachedSafetyData
  cachedSafetyData := some initialSafetyData
  internalStore :=
    { internalStore with
      safetyData := initialSafetyData
      waypoint
      ownerAccount := author
      consensusKeys := [consensusKey]
      executionKey }

/-- Call the backend and report its errors. -/
def callStore {α : Type} (report : StorageError → Abort)
    (program : Stateful SecureStorage StorageError α) : Stateful PersistentSafetyStorage Abort α :=
  Stateful.mapError report
    (program.zoom internalStore fun storage store => { storage with internalStore := store })

def author : Stateful PersistentSafetyStorage Abort AccountAddress :=
  callStore Abort.ofStorage (SecureStorage.get SecureStorage.ownerAccount)

def consensusKeyForVersion (version : PublicKey) :
    Stateful PersistentSafetyStorage Abort PublicKey :=
  callStore Abort.ofStorage (SecureStorage.exportPrivateKeyForVersion version)

/-- Sign a message inside the backend. -/
def sign (crypto : Crypto) (keyVersion : PublicKey) (message : Message) :
    Stateful PersistentSafetyStorage Abort Signature :=
  callStore Abort.ofStorage (SecureStorage.signUsingVersion crypto keyVersion message)

/-- Read the safety data from the backend. -/
def readSafetyData : Stateful PersistentSafetyStorage Abort SafetyData :=
  callStore Abort.ofStorage (SecureStorage.get SecureStorage.safetyData)

/--
The safety data.  Without caching the source reads the value at the type of a result,
not at the type it was written at; a backend that checks the type answers that read
with a serialization error, which is one of the answers of `faults`.
-/
def safetyData : Stateful PersistentSafetyStorage Abort SafetyData := do
  let storage ← Stateful.reads fun storage => storage
  if !storage.enableCachedSafetyData then
    readSafetyData
  else
    match storage.cachedSafetyData with
    | some cached => pure cached
    | none => do
        let data ← readSafetyData
        Stateful.modify fun storage => { storage with cachedSafetyData := some data }
        return data

/-- Write the safety data; a failed write drops the copy in memory. -/
def setSafetyData (data : SafetyData) : Stateful PersistentSafetyStorage Abort Unit := do
  Stateful.onError
    (fun storage => { storage with cachedSafetyData := none })
    (callStore (fun failure => .error (.secureStorageUnexpectedError failure.toString))
      (SecureStorage.set fun store => { store with safetyData := data }))
  Stateful.modify fun storage => { storage with cachedSafetyData := some data }

def waypoint : Stateful PersistentSafetyStorage Abort Waypoint :=
  callStore Abort.ofStorage (SecureStorage.get SecureStorage.waypoint)

def setWaypoint (waypoint : Waypoint) : Stateful PersistentSafetyStorage Abort Unit :=
  callStore Abort.ofStorage (SecureStorage.set fun store => { store with waypoint })

end PersistentSafetyStorage

end Diem
