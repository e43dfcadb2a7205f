import Diem.PersistentSafetyStorage

namespace Diem

open Stateful Abort PersistentSafetyStorage
open PersistentSafetyStorage (safetyData setSafetyData)

/-!
# The safety rules

`SafetyRules` is the part of a validator that holds its consensus key.  It signs a
vote, a timeout or a proposal only after checking it against the persisted safety
data (`consensus/safety-rules/src/safety_rules.rs` and `safety_rules_2chain.rs`).

Every method is a computation over the whole instance: an early return leaves the
changes made before it in place.
-/

/-- The signer of a validator: an exported key, or a key held by the storage. -/
inductive ConfigurableValidatorSigner where
  | signer (author : AccountAddress) (consensusKey : PublicKey)
  | handle (author : AccountAddress) (keyVersion : PublicKey)
  deriving DecidableEq

namespace ConfigurableValidatorSigner

def author : ConfigurableValidatorSigner → AccountAddress
  | .signer author _ => author
  | .handle author _ => author

def publicKey : ConfigurableValidatorSigner → PublicKey
  | .signer _ consensusKey => consensusKey
  | .handle _ keyVersion => keyVersion

/-- Sign a message, through the storage if it holds the key. -/
def sign (crypto : Crypto) (signer : ConfigurableValidatorSigner) (message : Message) :
    Stateful PersistentSafetyStorage Abort Signature :=
  match signer with
  | .signer _ consensusKey => pure (crypto.sign consensusKey message)
  | .handle _ keyVersion => PersistentSafetyStorage.sign crypto keyVersion message

end ConfigurableValidatorSigner

/-- An instance of the safety rules. -/
structure SafetyRules where
  persistentStorage : PersistentSafetyStorage
  executionPublicKey : Option PublicKey
  exportConsensusKey : Bool
  validatorSigner : Option ConfigurableValidatorSigner
  epochState : Option EpochState
  deriving DecidableEq

namespace Abort

/-- Return an error unless the condition holds. -/
def ensure (condition : Prop) [Decidable condition]
    (failure : SafetyRulesError) : Except Abort Unit :=
  if condition then .ok () else .error (.error failure)

/-- Take the value of an option, or return an error. -/
def okOr {α : Type} (value : Option α) (failure : SafetyRulesError) : Except Abort α :=
  match value with
  | some found => .ok found
  | none => .error (.error failure)

@[simp] theorem ensure_eq_ok_iff {condition : Prop} [Decidable condition]
    {failure : SafetyRulesError} : ensure condition failure = .ok () ↔ condition := by
  by_cases holds : condition <;> simp [ensure, holds]

@[simp] theorem okOr_eq_ok_iff {α : Type} {value : Option α} {failure : SafetyRulesError}
    {found : α} : okOr value failure = .ok found ↔ value = some found := by
  cases value <;> simp [okOr]

end Abort

namespace SafetyRules

/-- The round after a given one, unless it wraps around. -/
def nextRound (round : Nat) : Except Abort Nat :=
  if round + 1 < 2 ^ 64 then
    .ok (round + 1)
  else
    .error (.error (.incorrectRound round))

/-- An instance over given storage. -/
def new (persistentStorage : PersistentSafetyStorage)
    (verifyVoteProposalSignature exportConsensusKey : Bool) : SafetyRules where
  persistentStorage
  executionPublicKey :=
    if verifyVoteProposalSignature then
      some persistentStorage.internalStore.executionKey
    else
      none
  exportConsensusKey
  validatorSigner := none
  epochState := none

/-- Run a computation on the storage. -/
def onStorage {α : Type} (program : Stateful PersistentSafetyStorage Abort α) :
    Stateful SafetyRules Abort α :=
  program.zoom persistentStorage fun rules storage => { rules with persistentStorage := storage }

/-- The signer, if the instance has one. -/
def signer : Stateful SafetyRules Abort ConfigurableValidatorSigner := do
  let validatorSigner ← reads validatorSigner
  lift (okOr validatorSigner (.notInitialized "validator_signer"))

/-- The validators of the epoch, if the instance knows them. -/
def epochStateOrFail : Stateful SafetyRules Abort EpochState := do
  let epochState ← reads epochState
  lift (okOr epochState (.notInitialized "epoch_state"))

variable (crypto : Crypto)

def sign (message : Message) : Stateful SafetyRules Abort Signature := do
  let validatorSigner ← signer
  onStorage (validatorSigner.sign crypto message)

/-- Record the rounds of a certificate; tells whether anything was raised. -/
def observeQc (qc : QuorumCert) (safetyData : SafetyData) : Bool × SafetyData :=
  let oneChain := qc.certifiedBlock.round
  let twoChain := qc.parentBlock.round
  (oneChain > safetyData.oneChainRound || twoChain > safetyData.preferredRound,
    { safetyData with
      oneChainRound :=
        if oneChain > safetyData.oneChainRound then
          oneChain
        else
          safetyData.oneChainRound
      preferredRound :=
        if twoChain > safetyData.preferredRound then
          twoChain
        else
          safetyData.preferredRound })

def verifyEpoch (epoch : Nat) (safetyData : SafetyData) : Except Abort Unit :=
  ensure (epoch = safetyData.epoch) (.incorrectEpoch epoch safetyData.epoch)

/-- The first voting rule: rounds increase. -/
def verifyAndUpdateLastVoteRound (round : Nat) (safetyData : SafetyData) :
    Except Abort SafetyData := do
  ensure (safetyData.lastVotedRound < round)
    (.incorrectLastVotedRound round safetyData.lastVotedRound)
  return { safetyData with lastVotedRound := round }

/-- The second voting rule: the certificate is not below the preferred round. -/
def verifyAndUpdatePreferredRound (quorumCert : QuorumCert) (safetyData : SafetyData) :
    Except Abort (Bool × SafetyData) := do
  let oneChainRound := quorumCert.certifiedBlock.round
  ensure (safetyData.preferredRound ≤ oneChainRound)
    (.incorrectPreferredRound oneChainRound safetyData.preferredRound)
  return observeQc quorumCert safetyData

/-- Whether three rounds follow each other. -/
def isThreeChain (block0 block1 block2 : Nat) : Except Abort Bool := do
  let nextBlock0 ← nextRound block0
  if nextBlock0 = block1 then do
    let nextBlock1 ← nextRound block1
    pure (nextBlock1 == block2)
  else
    pure false

variable (proposedBlock : Block) (consensusDataHash : HashValue)

/-- The ledger info of a vote under the 3-chain commit rule. -/
def constructLedgerInfo : Except Abort LedgerInfo := do
  let block2 := proposedBlock.round
  let block1 := proposedBlock.quorumCert.certifiedBlock.round
  let block0 := proposedBlock.quorumCert.parentBlock.round
  let commit ← isThreeChain block0 block1 block2
  let commitInfo :=
    if commit then proposedBlock.quorumCert.parentBlock else BlockInfo.empty
  return { commitInfo, consensusDataHash }

/-- The ledger info of a vote under the 2-chain commit rule. -/
def constructLedgerInfo2chain : Except Abort LedgerInfo := do
  let block1 := proposedBlock.round
  let block0 := proposedBlock.quorumCert.certifiedBlock.round
  let nextBlock0 ← nextRound block0
  let commitInfo :=
    if nextBlock0 = block1 then
      proposedBlock.quorumCert.certifiedBlock
    else
      BlockInfo.empty
  return { commitInfo, consensusDataHash }

/--
Whether a round follows the round of a certificate, or follows the round of a timeout
under a further condition.
-/
def followsQcOrTc (round qcRound tcRound : Nat) (condition : Bool) : Except Abort Bool := do
  let nextQc ← nextRound qcRound
  if round = nextQc then
    pure true
  else do
    let nextTc ← nextRound tcRound
    pure (round == nextTc && condition)

/-- The 2-chain voting rule. -/
def safeToVote (block : Block) (maybeTc : Option TwoChainTimeoutCertificate) :
    Except Abort Unit := do
  let round := block.round
  let qcRound := block.quorumCert.certifiedBlock.round
  let tcRound := (maybeTc.map TwoChainTimeoutCertificate.round).getD 0
  let hqcRound := (maybeTc.map TwoChainTimeoutCertificate.highestHqcRound).getD 0
  let safe ← followsQcOrTc round qcRound tcRound (qcRound ≥ hqcRound)
  ensure safe (.notSafeToVote round qcRound tcRound hqcRound)

/-- The 2-chain timeout rule. -/
def safeToTimeout (timeout : TwoChainTimeout) (maybeTc : Option TwoChainTimeoutCertificate)
    (safetyData : SafetyData) : Except Abort Unit := do
  let round := timeout.round
  let qcRound := timeout.hqcRound
  let tcRound := (maybeTc.map TwoChainTimeoutCertificate.round).getD 0
  let follows ← followsQcOrTc round qcRound tcRound true
  ensure (follows ∧ qcRound ≥ safetyData.oneChainRound)
    (.notSafeToTimeout round qcRound tcRound safetyData.oneChainRound)

/-- The certificate has valid signatures. -/
def verifyQc (qc : QuorumCert) : Stateful SafetyRules Abort Unit := do
  let epochState ← epochStateOrFail
  lift (wrap .invalidQuorumCertificate (qc.verify crypto epochState.verifier))

/-- The timeout certificate, if there is one, has valid signatures. -/
def verifyTc (maybeTc : Option TwoChainTimeoutCertificate) : Stateful SafetyRules Abort Unit :=
  match maybeTc with
  | none => pure ()
  | some tc => do
      let epochState ← epochStateOrFail
      lift (wrap .invalidTimeoutCertificate (tc.verify crypto epochState.verifier))

/-- The author of a proposal is the signer. -/
def verifyAuthor (author : Option AccountAddress) : Stateful SafetyRules Abort Unit := do
  let validatorSigner ← signer
  let author ← lift (okOr author (.invalidProposal "No author found in the proposal"))
  lift
    (ensure (validatorSigner.author = author)
      (.invalidProposal "Proposal author is not validator signer!"))

variable (now : Nat) (proposal : MaybeSignedVoteProposal)

/-- The execution service signed the proposal, if it has to. -/
def verifyExecutionSignature (executionPublicKey : Option PublicKey) : Except Abort Unit :=
  match executionPublicKey with
  | none => .ok ()
  | some publicKey => do
      let signature ← okOr proposal.signature .voteProposalSignatureNotFound
      ensure (crypto.verify publicKey (.voteProposal proposal.voteProposal) signature)
        (.internalError "signature error")

/-- The checks on a proposal that do not involve the voting rules. -/
def verifyProposal : Stateful SafetyRules Abort VoteData := do
  let executionPublicKey ← reads executionPublicKey
  lift (verifyExecutionSignature crypto proposal executionPublicKey)
  let proposedBlock := proposal.voteProposal.block
  let safetyData ← onStorage safetyData
  lift (verifyEpoch proposedBlock.epoch safetyData)
  verifyQc crypto proposedBlock.quorumCert
  let epochState ← epochStateOrFail
  lift (wrap .invalidProposal (proposedBlock.validateSignature crypto epochState.verifier))
  lift (wrap .invalidProposal (proposedBlock.verifyWellFormed now))
  lift (wrap .invalidAccumulatorExtension (proposal.voteProposal.genVoteData crypto))

/-- The vote cast last, if it was in the given round. -/
def previousVote (safetyData : SafetyData) (round : Nat) : Option Vote :=
  safetyData.lastVote.filter fun vote => vote.voteData.proposed.round = round

/-- Sign a vote and persist it with the given safety data. -/
def signVote (voteData : VoteData) (ledgerInfo : Except Abort LedgerInfo)
    (safetyData : SafetyData) : Stateful SafetyRules Abort Vote := do
  let validatorSigner ← signer
  let ledgerInfo ← lift ledgerInfo
  let signature ← sign crypto (.ledgerInfo ledgerInfo)
  let vote := .newWithSignature voteData validatorSigner.author ledgerInfo signature
  onStorage
    (setSafetyData { safetyData with lastVote := some vote })
  return vote

/-- Vote for a block under the 3-chain rules. -/
def guardedConstructAndSignVote : Stateful SafetyRules Abort Vote := do
  let _ ← signer
  let voteData ← verifyProposal crypto now proposal
  let safetyData ← onStorage safetyData
  let proposedBlock := proposal.voteProposal.block
  match previousVote safetyData proposedBlock.round with
  | some vote => pure vote
  | none => do
      let observed ← lift (verifyAndUpdatePreferredRound proposedBlock.quorumCert safetyData)
      let safetyData ← lift (verifyAndUpdateLastVoteRound proposedBlock.round observed.2)
      signVote crypto voteData (constructLedgerInfo proposedBlock (crypto.hashVoteData voteData))
        safetyData

def guardedConstructAndSignVoteTwoChain (timeoutCert : Option TwoChainTimeoutCertificate) :
    Stateful SafetyRules Abort Vote := do
  let _ ← signer
  let voteData ← verifyProposal crypto now proposal
  verifyTc crypto timeoutCert
  let proposedBlock := proposal.voteProposal.block
  let safetyData ← onStorage safetyData
  match previousVote safetyData proposedBlock.round with
  | some vote => pure vote
  | none => do
      let safetyData ← lift (verifyAndUpdateLastVoteRound proposedBlock.round safetyData)
      lift (safeToVote proposedBlock timeoutCert)
      let observed := observeQc proposedBlock.quorumCert safetyData
      signVote crypto voteData
        (constructLedgerInfo2chain proposedBlock (crypto.hashVoteData voteData))
        observed.2

/-- Record the round of a timeout before it is signed. -/
def recordTimeout (round : Nat) (safetyData : SafetyData) : Stateful SafetyRules Abort Unit := do
  lift
    (ensure (safetyData.lastVotedRound ≤ round)
      (.incorrectLastVotedRound round safetyData.lastVotedRound))
  if round > safetyData.lastVotedRound then
    let safetyData ← lift (verifyAndUpdateLastVoteRound round safetyData)
    onStorage (setSafetyData safetyData)

/-- Sign a timeout of the 3-chain protocol. -/
def guardedSignTimeout (timeout : Timeout) : Stateful SafetyRules Abort Signature := do
  let _ ← signer
  let safetyData ← onStorage safetyData
  lift (verifyEpoch timeout.epoch safetyData)
  lift
    (ensure (safetyData.preferredRound < timeout.round)
      (.incorrectPreferredRound timeout.round safetyData.preferredRound))
  recordTimeout timeout.round safetyData
  sign crypto (.timeout timeout)

/-- Sign a timeout of the 2-chain protocol. -/
def guardedSignTimeoutWithQc (timeout : TwoChainTimeout)
    (timeoutCert : Option TwoChainTimeoutCertificate) : Stateful SafetyRules Abort Signature := do
  let _ ← signer
  let safetyData ← onStorage safetyData
  lift (verifyEpoch timeout.epoch safetyData)
  let epochState ← epochStateOrFail
  lift (wrap .invalidTimeout (timeout.verify crypto epochState.verifier))
  verifyTc crypto timeoutCert
  lift (safeToTimeout timeout timeoutCert safetyData)
  recordTimeout timeout.round safetyData
  sign crypto (.timeoutSigningRepr timeout.signingFormat)

/-- Sign a proposal; the preferred round it shows is not persisted. -/
def guardedSignProposal (blockData : BlockData) : Stateful SafetyRules Abort Signature := do
  let _ ← signer
  verifyAuthor blockData.author
  let safetyData ← onStorage safetyData
  lift (verifyEpoch blockData.epoch safetyData)
  lift
    (ensure (safetyData.lastVotedRound < blockData.round)
      (.invalidProposal
        (s!"Proposed round {blockData.round} is not higher than " ++
          s!"last voted round {safetyData.lastVotedRound}")))
  verifyQc crypto blockData.quorumCert
  let _ ← lift (verifyAndUpdatePreferredRound blockData.quorumCert safetyData)
  sign crypto (.blockData blockData)

/-- The safety data of an epoch in which nothing was signed yet. -/
def freshSafetyData (epoch : Nat) : SafetyData where
  epoch
  lastVotedRound := 0
  preferredRound := 0
  oneChainRound := 0
  lastVote := none

/-- Replace the waypoint by a newer one. -/
def raiseWaypoint (waypoint newWaypoint : Waypoint) : Stateful SafetyRules Abort Unit :=
  if newWaypoint.version > waypoint.version then
    onStorage (setWaypoint newWaypoint)
  else
    pure ()

/-- Reset the safety data when the epoch is new, and refuse an old epoch. -/
def startEpoch (waypoint newWaypoint : Waypoint) (epochState : EpochState) :
    Stateful SafetyRules Abort Unit := do
  let current ← onStorage safetyData
  if current.epoch > epochState.epoch then
    fail
      (.error
        (.waypointOutOfDate waypoint.version newWaypoint.version current.epoch epochState.epoch))
  else if current.epoch < epochState.epoch then
    onStorage (setSafetyData (freshSafetyData epochState.epoch))

/-- A missing key is reported under the validator's name for it. -/
def keyNotFound : Abort → Abort
  | .error (.secureStorageMissingDataError message) => .error (.validatorKeyNotFound message)
  | failure => failure

/-- A test signature that fails means that the key is not there. -/
def testSignatureFailed : Abort → Abort
  | .error failure => .error (.validatorKeyNotFound failure.toString)
  | .panic message => .panic message

/-- Get hold of the key that the validator set lists for this validator. -/
def reconcileKey (author : AccountAddress) (epochState : EpochState) :
    Stateful SafetyRules Abort Unit :=
  match epochState.verifier.getPublicKey author with
  | none => fail (.error (.validatorNotInSet s!"{author}"))
  | some expectedKey => do
      let current ← reads validatorSigner
      let exportConsensusKey ← reads exportConsensusKey
      if current.map ConfigurableValidatorSigner.publicKey = some expectedKey then
        pure ()
      else if exportConsensusKey then do
        let consensusKey ←
          mapError keyNotFound
            (onStorage (consensusKeyForVersion expectedKey))
        modify fun rules => { rules with validatorSigner := some (.signer author consensusKey) }
      else do
        modify fun rules => { rules with validatorSigner := some (.handle author expectedKey) }
        let _ ← mapError testSignatureFailed (sign crypto (.timeout { epoch := 0, round := 0 }))

/-- Move to the epoch that the proof leads to. -/
def guardedInitialize (proof : EpochChangeProof) : Stateful SafetyRules Abort Unit := do
  let waypoint ← onStorage waypoint
  let lastLi ← lift (wrap .invalidEpochChangeProof (proof.verify crypto (.waypoint waypoint)))
  let ledgerInfo := lastLi.ledgerInfo
  let epochState ← lift (okOr ledgerInfo.nextEpochState .invalidLedgerInfo)
  let newWaypoint ← lift (wrap .internalError (Waypoint.newEpochBoundary crypto ledgerInfo))
  raiseWaypoint waypoint newWaypoint
  startEpoch waypoint newWaypoint epochState
  modify fun rules => { rules with epochState := some epochState }
  let author ← onStorage author
  onError (fun rules => { rules with validatorSigner := none })
    (reconcileKey crypto author epochState)

end SafetyRules

end Diem
