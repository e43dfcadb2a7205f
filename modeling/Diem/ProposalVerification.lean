import Diem.CertificateVerification

namespace Diem

open Fallible

/-!
# Verification of proposals and epoch changes

Checks on blocks and vote proposals, on waypoints, and on the proofs that lead a
validator from one epoch to the next.  The current time is an argument.  Hash values
are not written out in texts.
-/

namespace Block

/-- The proposal and the certificate of its parent are correctly signed. -/
def validateSignature (crypto : Crypto) (block : Block)
    (validator : ValidatorVerifier) : Fallible Unit :=
  match block.blockData.blockType with
  | .genesis => .error (.error "We should not accept genesis from others")
  | .nilBlock => block.quorumCert.verify crypto validator
  | .proposal _ author =>
    match block.signature with
    | none => .error (.error "Missing signature in Proposal")
    | some signature => do
        VerifyError.report (validator.verify crypto author (.blockData block.blockData) signature)
        block.quorumCert.verify crypto validator

/-- How far in the future a block may be, in microseconds. -/
def timebound : Nat := 300000000

/-- The latest timestamp a block may have. -/
def latestTimestamp (now : Nat) : Nat :=
  min (now + timebound) (2 ^ 64 - 1)

/-- The timestamp fits the one of the parent and the current time. -/
def verifyTimestamp (now : Nat) (block : Block) : Fallible Unit :=
  let parent := block.quorumCert.certifiedBlock
  if block.blockData.isNilBlock ∨ parent.hasReconfiguration then
    ensure (block.blockData.timestampUsecs = parent.timestampUsecs)
      "Nil/reconfig suffix block must have same timestamp as parent"
  else do
    ensure (block.blockData.timestampUsecs > parent.timestampUsecs)
      "Blocks must have strictly increasing timestamps"
    ensure (block.blockData.timestampUsecs ≤ latestTimestamp now)
      "Blocks must not be too far in the future"

/-- The block makes sense independently of the current state. -/
def verifyWellFormed (now : Nat) (block : Block) : Fallible Unit := do
  ensure (!block.blockData.isGenesisBlock) "We must not accept genesis from others"
  let parent := block.quorumCert.certifiedBlock
  ensure (parent.round < block.round) "Block must have a greater round than parent's block"
  ensure (parent.epoch = block.epoch) "block's parent should be in the same epoch"
  ensure (parent.hasReconfiguration → block.blockData.payload.getD [] = [])
    "Reconfiguration suffix should not carry payload"
  block.verifyTimestamp now
  ensure (!block.quorumCert.endsEpoch) "Block cannot be proposed in an epoch that has ended"

end Block

namespace AccumulatorExtensionProof

/-- Check the original root and append the new leaves. -/
def verify (crypto : Crypto) (proof : AccumulatorExtensionProof) (originalRoot : HashValue) :
    Fallible (InMemoryAccumulator HashValue) := do
  let originalTree ←
    InMemoryAccumulator.new crypto.transactionAccumulator proof.frozenSubtreeRoots proof.numLeaves
  ensure (originalTree.rootHash = originalRoot) "Root hashes do not match."
  InMemoryAccumulator.append crypto.transactionAccumulator originalTree proof.leaves

end AccumulatorExtensionProof

namespace VoteProposal

variable (crypto : Crypto) (proposal : VoteProposal)

/-- The vote data with a given execution result. -/
def voteDataWith (executedStateId : HashValue) (version : Nat) : VoteData where
  proposed := proposal.block.genBlockInfo crypto executedStateId version proposal.nextEpochState
  parent := proposal.block.quorumCert.certifiedBlock

/-- The vote data with a dummy execution result. -/
def voteDataOrderingOnly : VoteData :=
  proposal.voteDataWith crypto HashValue.accumulatorPlaceholderHash 0

/-- The vote data with the execution result of an accumulator. -/
def voteDataWithExtensionProof (newTree : InMemoryAccumulator HashValue) : VoteData :=
  proposal.voteDataWith crypto newTree.rootHash newTree.version

/-- The vote data, with the execution result if execution is not decoupled. -/
def genVoteData : Fallible VoteData :=
  if proposal.decoupledExecution then
    .ok (proposal.voteDataOrderingOnly crypto)
  else do
    let newTree ←
      proposal.accumulatorExtensionProof.verify crypto
        proposal.block.quorumCert.certifiedBlock.executedStateId
    return proposal.voteDataWithExtensionProof crypto newTree

/-- The vote data is about the block of the proposal. -/
theorem genVoteData_ok {crypto : Crypto} {proposal : VoteProposal} {voteData : VoteData}
    (generated : proposal.genVoteData crypto = .ok voteData) :
    ∃ executedStateId version, voteData = proposal.voteDataWith crypto executedStateId version := by
  rw [genVoteData] at generated
  split at generated
  · cases generated
    exact ⟨_, _, rfl⟩
  · obtain ⟨newTree, -, returned⟩ := bind_eq_ok_iff.mp generated
    cases returned
    exact ⟨_, _, rfl⟩

end VoteProposal

namespace Waypoint

variable (crypto : Crypto) (info : LedgerInfo)

/-- The fields of a ledger info that a waypoint commits to. -/
def converter : Ledger2WaypointConverter where
  epoch := info.epoch
  rootHash := info.transactionAccumulatorHash
  version := info.version
  timestampUsecs := info.commitInfo.timestampUsecs
  nextEpochState := info.nextEpochState

def newAny : Waypoint where
  version := info.version
  value := crypto.hashWaypoint (converter info)

/-- The waypoint of a ledger info that ends an epoch. -/
def newEpochBoundary : Fallible Waypoint := do
  ensure info.endsEpoch "No validator set"
  return newAny crypto info

def verify (waypoint : Waypoint) (info : LedgerInfo) : Fallible Unit := do
  ensure (info.version = waypoint.version)
    (s!"Waypoint version mismatch: waypoint version = {waypoint.version}, " ++
      s!"given version = {info.version}")
  ensure (crypto.hashWaypoint (converter info) = waypoint.value) "Waypoint value mismatch"

end Waypoint

/-- What a ledger info is checked against: a waypoint or the validators. -/
inductive Verifier where
  | waypoint (trusted : Waypoint)
  | epochState (state : EpochState)
  deriving DecidableEq

namespace Verifier

/-- The ledger info is trustworthy. -/
def verify (crypto : Crypto) (verifier : Verifier)
    (signed : LedgerInfoWithSignatures) : Fallible Unit :=
  match verifier with
  | .waypoint trusted => trusted.verify crypto signed.ledgerInfo
  | .epochState state => do
      ensure (state.epoch = signed.ledgerInfo.epoch)
        (s!"LedgerInfo has unexpected epoch {signed.ledgerInfo.epoch}, " ++
          s!"expected {state.epoch}")
      VerifyError.report (signed.verifySignatures crypto state.verifier)

/-- The ledger info lies before what the verifier trusts. -/
def isLedgerInfoStale (verifier : Verifier) (info : LedgerInfo) : Bool :=
  match verifier with
  | .waypoint trusted => info.version < trusted.version
  | .epochState state => info.epoch < state.epoch

end Verifier

namespace EpochChangeProof

/-- Verify each epoch change with the validators the one before it installed. -/
def verifyChain (crypto : Crypto) :
    Verifier → List LedgerInfoWithSignatures → Fallible Unit
  | _, [] => .ok ()
  | verifier, signed :: rest => do
      verifier.verify crypto signed
      match signed.ledgerInfo.nextEpochState with
      | none => .error (.error "LedgerInfo doesn't carry a ValidatorSet")
      | some state => verifyChain crypto (.epochState state) rest

/-- Verify the epoch changes that are not stale and return the last one. -/
def verify (crypto : Crypto) (proof : EpochChangeProof) (verifier : Verifier) :
    Fallible LedgerInfoWithSignatures :=
  match proof.ledgerInfoWithSigs.getLast? with
  | none => .error (.error "The EpochChangeProof is empty")
  | some last => do
      ensure (!verifier.isLedgerInfoStale last.ledgerInfo)
        ("The EpochChangeProof is stale as our verifier is already ahead " ++
          "of the entire EpochChangeProof")
      verifyChain crypto verifier
        (proof.ledgerInfoWithSigs.dropWhile fun signed =>
          verifier.isLedgerInfoStale signed.ledgerInfo)
      return last

/-- An accepted proof returns its last ledger info. -/
theorem verify_ok {crypto : Crypto} {proof : EpochChangeProof} {verifier : Verifier}
    {last : LedgerInfoWithSignatures} (accepted : proof.verify crypto verifier = .ok last) :
    proof.ledgerInfoWithSigs.getLast? = some last := by
  rw [verify] at accepted
  split at accepted
  · cases accepted
  · rename_i found lookup
    simp only [check_eq_ok_iff] at accepted
    obtain ⟨-, -, returned⟩ := accepted
    cases returned
    exact lookup

end EpochChangeProof

end Diem
