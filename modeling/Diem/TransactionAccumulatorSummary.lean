import Diem.InMemoryAccumulator
import Diem.LedgerInfo

namespace Diem

open MerkleForest

/-!
# Accumulator summaries of light clients

A light client keeps the frozen subtree roots of the transaction accumulator and
extends them with consistency proofs, checking the result against a ledger info
(`types/src/proof/definition.rs`).
-/

/-- The client's view of the transaction accumulator. -/
structure TransactionAccumulatorSummary where
  accumulator : InMemoryAccumulator HashValue
  deriving DecidableEq

/-- The subtrees that represent newly appended leaves. -/
structure AccumulatorConsistencyProof where
  subtrees : List HashValue
  deriving DecidableEq, Repr

namespace TransactionAccumulatorSummary

variable (summary : TransactionAccumulatorSummary)

/-- The version of the last transaction. -/
def version : Nat := summary.accumulator.version

def rootHash : HashValue := summary.accumulator.rootHash

/-- The summary has the version and the root hash of the ledger info. -/
def verifyConsistency (ledgerInfo : LedgerInfo) : Fallible Unit := do
  Fallible.ensure (ledgerInfo.version = summary.version)
    ("ledger info and accumulator must be at the same version: " ++
      s!"ledger info version={ledgerInfo.version}, " ++
      s!"accumulator version={summary.version}")
  Fallible.ensure (ledgerInfo.transactionAccumulatorHash = summary.rootHash)
    "ledger info root hash and accumulator root hash must match"

/-- Replace an error by an error with the given context. -/
def withContext {α : Type} (result : Fallible α) (context : String) : Fallible α :=
  match result with
  | .error (.error _) => .error (.error context)
  | other => other

/-- Extend a summary and check the result against the target ledger info. -/
def tryExtendWithProof (hasher : Hasher HashValue) (summary : TransactionAccumulatorSummary)
    (consistencyProof : AccumulatorConsistencyProof) (targetLi : LedgerInfo) :
    Fallible TransactionAccumulatorSummary := do
  Fallible.ensure (targetLi.version ≥ summary.accumulator.version)
    (s!"target ledger info version ({targetLi.version}) must be newer than " ++
      "our current accumulator summary version " ++
      s!"({summary.accumulator.version})")
  let numNewTxns := targetLi.version - summary.accumulator.version
  let accumulator ← summary.accumulator.appendSubtrees hasher consistencyProof.subtrees numNewTxns
  let newAccumulator : TransactionAccumulatorSummary := { accumulator }
  withContext (newAccumulator.verifyConsistency targetLi)
    ("accumulator is not consistent with the target ledger info after " ++
      "applying consistency proof")
  return newAccumulator

end TransactionAccumulatorSummary

end Diem
