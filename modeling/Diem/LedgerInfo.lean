import Diem.Fallible
import Diem.ValidatorVerifier

namespace Diem

/-!
# Block infos and ledger infos

A `BlockInfo` describes a block and its execution result, a `LedgerInfo` commits to
one block and carries an opaque hash for consensus.  Both are what validators sign
(`types/src/block_info.rs`, `types/src/ledger_info.rs`).

Hash values are terms: an atom, or a pair of hash values.  Nothing in the model
depends on their shape, but it leaves room for hash functions without collisions.
-/

/-- A hash as a term. -/
inductive HashValue where
  | atom (value : Nat)
  | pair (left right : HashValue)
  deriving DecidableEq, Repr

namespace HashValue

/-- The hash value made of zero bytes. -/
def zero : HashValue := .atom 0

/-- The hash of an absent accumulator subtree. -/
def accumulatorPlaceholderHash : HashValue := .atom 1

end HashValue

/-- An epoch and its validators. -/
structure EpochState where
  epoch : Nat
  verifier : ValidatorVerifier
  deriving DecidableEq

/-- A block and the result of executing it. -/
structure BlockInfo where
  epoch : Nat
  round : Nat
  id : HashValue
  executedStateId : HashValue
  version : Nat
  timestampUsecs : Nat
  nextEpochState : Option EpochState
  deriving DecidableEq

namespace BlockInfo

/-- The block info that commits nothing. -/
def empty : BlockInfo where
  epoch := 0
  round := 0
  id := .zero
  executedStateId := .zero
  version := 0
  timestampUsecs := 0
  nextEpochState := none

variable (info : BlockInfo)

def nextBlockEpoch : Nat :=
  match info.nextEpochState with
  | some state => state.epoch
  | none => info.epoch

/-- Whether the block ends its epoch. -/
def hasReconfiguration : Bool := info.nextEpochState.isSome

/-- Whether the timestamp may be moved back to the given one. -/
def allowTimestampChange (timestamp : Nat) : Bool :=
  info.hasReconfiguration && decide (info.timestampUsecs ≥ timestamp)

/-- Move the timestamp back to that of the reconfiguration block. -/
def changeTimestamp (timestamp : Nat) : Fallible BlockInfo := do
  Fallible.require (info.allowTimestampChange timestamp)
    "assertion failed: self.allow_timestamp_change(timestamp)"
  return { info with timestampUsecs := timestamp }

/-- Whether an executed block info has the fields of this ordered one. -/
def matchOrderedOnly (info executed : BlockInfo) : Bool :=
  decide (info.epoch = executed.epoch) &&
  decide (info.round = executed.round) &&
  decide (info.id = executed.id) &&
  (decide (info.timestampUsecs = executed.timestampUsecs) ||
    (decide (info.timestampUsecs > executed.timestampUsecs) && executed.hasReconfiguration))

end BlockInfo

/-- A committed block, with a hash that only consensus reads. -/
structure LedgerInfo where
  commitInfo : BlockInfo
  consensusDataHash : HashValue
  deriving DecidableEq

namespace LedgerInfo

variable (info : LedgerInfo)

/-- The epoch of the committed block. -/
def epoch : Nat := info.commitInfo.epoch

def nextBlockEpoch : Nat := info.commitInfo.nextBlockEpoch

/-- The accumulator root after the committed block. -/
def transactionAccumulatorHash : HashValue :=
  info.commitInfo.executedStateId

/-- The last version of the committed block. -/
def version : Nat := info.commitInfo.version

/-- The validators of the next epoch, if the block ends its epoch. -/
def nextEpochState : Option EpochState :=
  info.commitInfo.nextEpochState

/-- Whether the committed block ends its epoch. -/
def endsEpoch : Bool := info.nextEpochState.isSome

end LedgerInfo

end Diem
