import Diem.ProposalVerification
import Diem.TransactionAccumulatorSummary

namespace Diem

/-!
# The trusted state of a light client

A light client starts from a waypoint or from the validators of an epoch.  A state
proof moves it to a later ledger info: epoch changes lead to the validators that sign
the latest ledger info, and a consistency proof extends the client's view of the
transaction accumulator (`types/src/trusted_state.rs`, `types/src/state_proof.rs`).
-/

/-- What a light client trusts. -/
inductive TrustedState where
  | epochWaypoint (waypoint : Waypoint)
  | epochState (waypoint : Waypoint) (epochState : EpochState)
      (accumulator : TransactionAccumulatorSummary)
  deriving DecidableEq

/-- The response to a request for a state proof. -/
structure StateProof where
  latestLiWSigs : LedgerInfoWithSignatures
  epochChanges : EpochChangeProof
  consistencyProof : AccumulatorConsistencyProof
  deriving DecidableEq

/-- What a state proof does to a trusted state. -/
inductive TrustedStateChange where
  | version (newState : TrustedState)
  | epoch (newState : TrustedState) (latestEpochChangeLi : LedgerInfoWithSignatures)
  | noChange
  deriving DecidableEq

namespace Verifier

/-- Whether a ledger info that leads to the epoch needs epoch changes first. -/
def epochChangeVerificationRequired (verifier : Verifier) (epoch : Nat) : Bool :=
  match verifier with
  | .waypoint _ => true
  | .epochState state => state.epoch < epoch

end Verifier

namespace TrustedStateChange

/-- The state to continue with, if it is a new one. -/
def newState : TrustedStateChange → Option TrustedState
  | .version newState => some newState
  | .epoch newState _ => some newState
  | .noChange => none

end TrustedStateChange

namespace TrustedState

/-- Trust the waypoint of an epoch change. -/
def fromEpochWaypoint (epochWaypoint : Waypoint) : TrustedState :=
  .epochWaypoint epochWaypoint

variable (crypto : Crypto)

/-- The waypoint of the trusted ledger info. -/
def waypoint : TrustedState → Waypoint
  | .epochWaypoint waypoint => waypoint
  | .epochState waypoint _ _ => waypoint

variable (state : TrustedState)

def version : Nat := state.waypoint.version

/-- The trusted view of the transaction accumulator. -/
def accumulatorSummary : TrustedState → Option TransactionAccumulatorSummary
  | .epochWaypoint _ => none
  | .epochState _ _ accumulator => some accumulator

/-- What ledger infos are checked against. -/
def verifier : TrustedState → Verifier
  | .epochWaypoint waypoint => .waypoint waypoint
  | .epochState _ current _ => .epochState current

/--
The accumulator to extend: the trusted one, or an untrusted one that fits the first
epoch change of the proof.
-/
def currAccumulator (epochChangeProof : EpochChangeProof)
    (initialAccumulator : Option TransactionAccumulatorSummary) :
    Fallible TransactionAccumulatorSummary :=
  match state with
  | .epochWaypoint _ => do
      let currAccumulator ←
        Fallible.expect initialAccumulator
          ("Client must provide an initial untrusted accumulator when " ++
            "verifying from a waypoint")
      let waypointLi ←
        Fallible.okOr epochChangeProof.ledgerInfoWithSigs.head? "Empty epoch change proof"
      currAccumulator.verifyConsistency waypointLi.ledgerInfo
      return currAccumulator
  | .epochState _ _ accumulator => .ok accumulator

/--
The ledger info to trust after the epoch changes: the latest one if the new
validators signed it, or the last epoch change while there are more to come.
-/
def verifiedLedgerInfo (newEpochState : EpochState)
    (epochChangeLi latestLi : LedgerInfoWithSignatures) (more : Bool) :
    Fallible LedgerInfoWithSignatures :=
  if epochChangeLi = latestLi then
    .ok latestLi
  else if latestLi.ledgerInfo.epoch = newEpochState.epoch then do
    (Verifier.epochState newEpochState).verify crypto latestLi
    return latestLi
  else if latestLi.ledgerInfo.epoch > newEpochState.epoch ∧ more then
    .ok epochChangeLi
  else
    .error (.error "Inconsistent epoch change proof and latest ledger info")

variable (currAccumulator : TransactionAccumulatorSummary)
  (latestLi : LedgerInfoWithSignatures) (epochChangeProof : EpochChangeProof)
  (consistencyProof : AccumulatorConsistencyProof)

/-- Move to the validators of a later epoch. -/
def ratchetEpoch : Fallible TrustedStateChange := do
  let epochChangeLi ← epochChangeProof.verify crypto state.verifier
  let newEpochState ←
    Fallible.okOr epochChangeLi.ledgerInfo.nextEpochState
      ("A valid EpochChangeProof will never return a non-epoch change " ++ "ledger info")
  let verified ←
    verifiedLedgerInfo crypto newEpochState epochChangeLi latestLi epochChangeProof.more
  let newAccumulator ←
    currAccumulator.tryExtendWithProof crypto.transactionAccumulator
      consistencyProof verified.ledgerInfo
  return .epoch
    (.epochState (Waypoint.newAny crypto verified.ledgerInfo) newEpochState newAccumulator)
    epochChangeLi

/-- Move to a later version of the current epoch. -/
def ratchetVersion : Fallible TrustedStateChange :=
  match state with
  | .epochWaypoint _ => .error (.error "EpochWaypoint can only verify an epoch change ledger info")
  | .epochState currWaypoint currEpochState _ =>
    let newWaypoint := .newAny crypto latestLi.ledgerInfo
    if newWaypoint.version = currWaypoint.version then do
      Fallible.ensure (newWaypoint = currWaypoint) "LedgerInfo doesn't match verified state"
      return .noChange
    else do
      (Verifier.epochState currEpochState).verify crypto latestLi
      let newAccumulator ←
        currAccumulator.tryExtendWithProof crypto.transactionAccumulator
          consistencyProof latestLi.ledgerInfo
      return .version (.epochState newWaypoint currEpochState newAccumulator)

/-- Verify the parts of a state proof and move to the state they prove. -/
def verifyAndRatchetInner (initialAccumulator : Option TransactionAccumulatorSummary) :
    Fallible TrustedStateChange := do
  Fallible.ensure (latestLi.ledgerInfo.version ≥ state.version)
    ("The target latest ledger info version is stale " ++
      s!"({latestLi.ledgerInfo.version}) and behind our current trusted " ++
      s!"version ({state.version})")
  let currAccumulator ← state.currAccumulator epochChangeProof initialAccumulator
  if state.verifier.epochChangeVerificationRequired latestLi.ledgerInfo.nextBlockEpoch then
    state.ratchetEpoch crypto currAccumulator latestLi epochChangeProof consistencyProof
  else
    state.ratchetVersion crypto currAccumulator latestLi consistencyProof

/-- Verify a state proof and move to the state it proves. -/
def verifyAndRatchet (stateProof : StateProof)
    (initialAccumulator : Option TransactionAccumulatorSummary) : Fallible TrustedStateChange :=
  state.verifyAndRatchetInner crypto stateProof.latestLiWSigs
    stateProof.epochChanges stateProof.consistencyProof initialAccumulator

end TrustedState

end Diem
