import Diem.SafetyRulesRuns
import Diem.SymbolicCrypto

namespace Diem

open Stateful (bind_run lift_bind lift_run)
open SafetyRules QuorumCert Fallible Crypto

/-!
# Timeout certificates of other epochs

A certificate verifies under every validator set that lists the keys of its signers,
so a check of the signatures does not tell in which epoch it was formed.  `SyncInfo`
compares the epochs of its quorum certificates and of the timeout certificate of the
3-chain protocol.  Nothing compares the epoch of a timeout certificate of the 2-chain
protocol, neither there nor in the safety rules.
-/

namespace SyncInfo

/-- All certificates are of the epoch of the highest quorum certificate. -/
structure SameEpochs (info : SyncInfo) : Prop where
  ordered : info.highestOrderedCert.certifiedBlock.epoch = info.epoch
  timeout : ∀ tc, info.highestTimeoutCert = some tc → tc.timeout.epoch = info.epoch
  twoChainTimeout : ∀ tc, info.highestTwoChainTimeoutCert = some tc → tc.epoch = info.epoch

variable {crypto : Crypto} {info : SyncInfo} {validator : ValidatorVerifier}

/-- The epochs that `SyncInfo` compares. -/
theorem verify_ok_epochs (accepted : info.verify crypto validator = .ok ()) :
    info.highestOrderedCert.certifiedBlock.epoch = info.epoch ∧
    ∀ tc, info.highestTimeoutCert = some tc → tc.timeout.epoch = info.epoch := by
  simp only [verify, verifyShape, check_eq_ok_iff, ensure_eq_ok_iff, whenSome_eq_ok_iff] at accepted
  obtain ⟨⟨ordered, timeout, -⟩, -⟩ := accepted
  exact ⟨ordered.symm, fun tc isTc => (timeout tc isTc).symm⟩

/-- The timeout certificate of the 2-chain protocol has valid signatures. -/
theorem verify_ok_twoChain (accepted : info.verify crypto validator = .ok ())
    {tc : TwoChainTimeoutCertificate} (isTc : info.highestTwoChainTimeoutCert = some tc) :
    tc.verify crypto validator = .ok () := by
  simp only [verify, verifyCertificates, check_eq_ok_iff,
    context_eq_ok_iff, whenSome_eq_ok_iff] at accepted
  obtain ⟨-, -, -, -, -, twoChain⟩ := accepted
  exact twoChain tc isTc

end SyncInfo

variable (crypto : Crypto) (epoch : Nat)

def epochStart : BlockInfo :=
  { BlockInfo.empty with
    epoch
    executedStateId := .accumulatorPlaceholderHash }

/-- The certificates of a validator that has just entered an epoch. -/
def startSyncInfo (tc : TwoChainTimeoutCertificate) : SyncInfo where
  highestQuorumCert := ofGenesis crypto (epochStart epoch)
  highestOrderedCert? := none
  highestLedgerInfo? := none
  highestTimeoutCert := none
  highestTwoChainTimeoutCert := some tc

/-- A timeout of the first round of an epoch. -/
def startTimeout : TwoChainTimeout where
  epoch
  round := 1
  quorumCert := ofGenesis crypto (epochStart epoch)

/-- A proposal of a block without transactions on the first block of an epoch. -/
def startProposal (round : Nat) : MaybeSignedVoteProposal where
  voteProposal :=
    { accumulatorExtensionProof :=
        { frozenSubtreeRoots := [], numLeaves := 0, leaves := [] }
      block :=
        { blockData :=
            { epoch
              round
              timestampUsecs := 0
              quorumCert := ofGenesis crypto (epochStart epoch)
              blockType := .nilBlock }
          signature := none }
      nextEpochState := none
      decoupledExecution := true }
  signature := none

/-- A validator that has just entered an epoch. -/
def startRules (epochState : EpochState) : SafetyRules where
  persistentStorage :=
    { enableCachedSafetyData := true
      cachedSafetyData := some (freshSafetyData epochState.epoch)
      internalStore :=
        { safetyData := freshSafetyData epochState.epoch
          waypoint := { version := 0, value := .zero }
          ownerAccount := 0
          consensusKeys := []
          executionKey := ⟨0⟩
          faults := []
          keyFaults := [] } }
  executionPublicKey := none
  exportConsensusKey := true
  validatorSigner := some (.signer 0 ⟨7⟩)
  epochState := some epochState

variable {crypto} {epochState : EpochState} {tc : TwoChainTimeoutCertificate}

theorem epochStart_verify :
    (ofGenesis crypto (epochStart epochState.epoch)).verify crypto epochState.verifier = .ok () :=
  ofGenesis_verify rfl _

/-- The certificates are accepted with any timeout certificate that verifies. -/
theorem startSyncInfo_verify (verified : tc.verify crypto epochState.verifier = .ok ()) :
    (startSyncInfo crypto epochState.epoch tc).verify crypto epochState.verifier = .ok () := by
  have notEmpty : epochStart epochState.epoch ≠ BlockInfo.empty := by
    simp [epochStart, BlockInfo.empty, HashValue.zero, HashValue.accumulatorPlaceholderHash]
  simp only [SyncInfo.verify, SyncInfo.verifyShape, SyncInfo.verifyCertificates, check_eq_ok_iff,
    context_eq_ok_iff, whenSome_eq_ok_iff, ensure_eq_ok_iff]
  refine ⟨⟨rfl, ?_, le_rfl, le_rfl, notEmpty, notEmpty, .inl rfl⟩,
    epochStart_verify, ?_, ?_, ?_, ?_⟩
  · rintro found ⟨⟩
  · rintro found ⟨⟩
  · rintro found ⟨⟩
  · rintro found ⟨⟩
  · rintro found ⟨⟩
    exact verified

/-- The checks on a proposal of the epoch pass. -/
theorem startProposal_verified {round : Nat} (later : 0 < round) :
    verifyProposal crypto 0 (startProposal crypto epochState.epoch round) (startRules epochState) =
      (.ok
        (VoteProposal.voteDataOrderingOnly crypto
          (startProposal crypto epochState.epoch round).voteProposal),
        startRules epochState) := by
  have sameEpoch : verifyEpoch epochState.epoch (freshSafetyData epochState.epoch) = .ok () := by
    simp [verifyEpoch, freshSafetyData]
  have wellFormed :
      Block.verifyWellFormed 0 (startProposal crypto epochState.epoch round).voteProposal.block =
        .ok () := by
    simp only [Block.verifyWellFormed, check_eq_ok_iff, ensure_eq_ok_iff]
    exact ⟨rfl, later, rfl, fun _ => rfl, rfl, rfl⟩
  exact bind_run rfl (bind_run rfl (bind_run rfl
    (lift_bind sameEpoch
      (lift_bind (Abort.wrap_eq_ok_iff.mpr epochStart_verify)
        (bind_run rfl
          (lift_bind (Abort.wrap_eq_ok_iff.mpr epochStart_verify)
            (lift_bind (Abort.wrap_eq_ok_iff.mpr wellFormed) rfl)))))))

section

variable (verified : tc.verify crypto epochState.verifier = .ok ())
include verified

theorem startRules_verifyTc :
    verifyTc crypto (some tc) (startRules epochState) = (.ok (), startRules epochState) :=
  lift_run (Abort.wrap_eq_ok_iff.mpr verified) _

/-- A validator that has just entered the epoch signs the timeout. -/
theorem startTimeout_signed :
    (guardedSignTimeoutWithQc crypto (startTimeout crypto epochState.epoch)
      (some tc)).Returns (startRules epochState) := by
  have timeoutVerified :
      (startTimeout crypto epochState.epoch).verify crypto epochState.verifier = .ok () := by
    rw [TwoChainTimeout.verify, check_eq_ok_iff, ensure_eq_ok_iff]
    exact ⟨Nat.zero_lt_one, epochStart_verify⟩
  have sameEpoch : verifyEpoch (startTimeout crypto epochState.epoch).epoch
        (freshSafetyData epochState.epoch) = .ok () := by
    simp [verifyEpoch, startTimeout, freshSafetyData]
  refine .bind rfl (.bind rfl (.bind (lift_run sameEpoch _)
    (.bind rfl (.bind (lift_run (Abort.wrap_eq_ok_iff.mpr timeoutVerified) _)
      (.bind (startRules_verifyTc verified) (.bind rfl ?_))))))
  exact ⟨_, rfl⟩

/-- A validator that has just entered the epoch votes for the proposal. -/
theorem startProposal_voted :
    (guardedConstructAndSignVoteTwoChain crypto 0 (startProposal crypto epochState.epoch 1)
      (some tc)).Returns (startRules epochState) := by
  refine .bind rfl (.bind (startProposal_verified Nat.zero_lt_one)
    (.bind (startRules_verifyTc verified) (.bind rfl ?_)))
  exact ⟨_, rfl⟩

end

/-- A validator in the epoch of the given validators. -/
structure InEpoch (epochState : EpochState) (rules : SafetyRules) : Prop where
  cacheAgrees : rules.persistentStorage.CacheAgrees
  known : rules.epochState = some epochState
  persisted : rules.persisted.epoch = epochState.epoch

variable (crypto epochState) (circulates : TwoChainTimeoutCertificate → Prop)

/-- The certificates of a peer that are accepted in the epoch are all of it. -/
def SyncInfosIsolated : Prop :=
  ∀ info : SyncInfo, info.epoch = epochState.epoch →
    (∀ tc, info.highestTwoChainTimeoutCert = some tc → circulates tc) →
    info.verify crypto epochState.verifier = .ok () → info.SameEpochs

/-- A timeout certificate that a vote of the epoch is given with is of it. -/
def VotesIsolated : Prop :=
  ∀ rules now proposal tc, InEpoch epochState rules → circulates tc →
    (guardedConstructAndSignVoteTwoChain crypto now proposal (some tc)).Returns rules →
      tc.epoch = rules.persisted.epoch

/-- A timeout certificate that a timeout of the epoch is given with is of it. -/
def TimeoutsIsolated : Prop :=
  ∀ rules timeout tc, InEpoch epochState rules → circulates tc →
    (guardedSignTimeoutWithQc crypto timeout (some tc)).Returns rules →
      tc.epoch = rules.persisted.epoch

/-- The certificates in circulation that verify in the epoch were formed in it. -/
def OnlyOwnCertificates : Prop :=
  ∀ tc, circulates tc → tc.verify crypto epochState.verifier = .ok () → tc.epoch = epochState.epoch

variable {crypto epochState circulates} {rules : SafetyRules}

section

variable (inEpoch : InEpoch epochState rules)
include inEpoch

theorem InEpoch.verifiedTc (verifiedTc : VerifiedTc crypto rules (some tc)) :
    tc.verify crypto epochState.verifier = .ok () := by
  obtain ⟨found, isFound, verified⟩ := verifiedTc tc rfl
  obtain rfl := Option.some.inj (inEpoch.known.symm.trans isFound)
  exact verified

/-- A vote with a timeout certificate was cast after verifying it. -/
theorem InEpoch.voted {now : Nat} {proposal : MaybeSignedVoteProposal}
    (returns : (guardedConstructAndSignVoteTwoChain crypto now proposal (some tc)).Returns rules) :
    tc.verify crypto epochState.verifier = .ok () := by
  obtain ⟨vote, returned⟩ := returns
  obtain ⟨verifiedTc, -⟩ := (guardedConstructAndSignVoteTwoChain_satisfies rules
    (.refl inEpoch.cacheAgrees)).1 vote returned
  exact inEpoch.verifiedTc verifiedTc

/-- A timeout with a timeout certificate was signed after verifying it. -/
theorem InEpoch.timedOut {timeout : TwoChainTimeout}
    (returns : (guardedSignTimeoutWithQc crypto timeout (some tc)).Returns rules) :
    tc.verify crypto epochState.verifier = .ok () := by
  obtain ⟨signature, returned⟩ := returns
  obtain ⟨signed, -⟩ := (guardedSignTimeoutWithQc_satisfies rules
    (.refl inEpoch.cacheAgrees)).1 signature returned
  exact inEpoch.verifiedTc signed.verifiedTc

end

theorem startRules_inEpoch (epochState : EpochState) :
    InEpoch epochState (startRules epochState) where
  cacheAgrees := by
    rintro data ⟨⟩
    rfl
  known := rfl
  persisted := rfl

/-- Peers' certificates are isolated exactly when only own ones verify. -/
theorem syncInfosIsolated_iff :
    SyncInfosIsolated crypto epochState circulates ↔
      OnlyOwnCertificates crypto epochState circulates := by
  constructor
  · intro isolated tc circulating verified
    have same := isolated (startSyncInfo crypto epochState.epoch tc) rfl
      (by rintro found ⟨⟩; exact circulating)
      (startSyncInfo_verify verified)
    exact same.twoChainTimeout tc rfl
  · intro onlyOwn info inEpoch circulating accepted
    obtain ⟨ordered, timeout⟩ := SyncInfo.verify_ok_epochs accepted
    refine ⟨ordered, timeout, ?_⟩
    intro tc isTc
    have verified := SyncInfo.verify_ok_twoChain accepted isTc
    exact (onlyOwn tc (circulating tc isTc) verified).trans inEpoch.symm

/-- Votes are isolated exactly when only own certificates verify. -/
theorem votesIsolated_iff :
    VotesIsolated crypto epochState circulates ↔
      OnlyOwnCertificates crypto epochState circulates := by
  constructor
  · intro isolated tc circulating verified
    exact isolated (startRules epochState) 0
      (startProposal crypto epochState.epoch 1) tc (startRules_inEpoch _)
      circulating (startProposal_voted verified)
  · intro onlyOwn rules now proposal tc inEpoch circulating returns
    have verified := inEpoch.voted returns
    exact (onlyOwn tc circulating verified).trans inEpoch.persisted.symm

/-- Timeouts are isolated exactly when only own certificates verify. -/
theorem timeoutsIsolated_iff :
    TimeoutsIsolated crypto epochState circulates ↔
      OnlyOwnCertificates crypto epochState circulates := by
  constructor
  · intro isolated tc circulating verified
    exact isolated (startRules epochState)
      (startTimeout crypto epochState.epoch) tc (startRules_inEpoch _)
      circulating (startTimeout_signed verified)
  · intro onlyOwn rules timeout tc inEpoch circulating returns
    have verified := inEpoch.timedOut returns
    exact (onlyOwn tc circulating verified).trans inEpoch.persisted.symm

/--
When certificates stay in their epoch.  Accepted certificates of a peer are of one
epoch exactly when the timeout certificate of the 2-chain protocol among them is.
Peers' certificates, votes and timeouts are isolated exactly when every such
certificate that verifies under the validators of the epoch was formed in it: no check
but that of the signatures keeps one of another epoch out.
-/
theorem epochIsolation_iff
    (crypto : Crypto)
    (epochState : EpochState)
    (circulates : TwoChainTimeoutCertificate → Prop) :
    (∀ info : SyncInfo, info.verify crypto epochState.verifier = .ok () →
      (info.SameEpochs ↔ ∀ tc, info.highestTwoChainTimeoutCert = some tc → tc.epoch = info.epoch)) ∧
    (SyncInfosIsolated crypto epochState circulates ↔
      OnlyOwnCertificates crypto epochState circulates) ∧
    (VotesIsolated crypto epochState circulates ↔
      OnlyOwnCertificates crypto epochState circulates) ∧
    (TimeoutsIsolated crypto epochState circulates ↔
      OnlyOwnCertificates crypto epochState circulates) := by
  refine ⟨?_, syncInfosIsolated_iff, votesIsolated_iff, timeoutsIsolated_iff⟩
  intro info accepted
  obtain ⟨ordered, timeout⟩ := SyncInfo.verify_ok_epochs accepted
  exact ⟨fun same => same.twoChainTimeout,
    fun twoChainTimeout => ⟨ordered, timeout, twoChainTimeout⟩⟩

/-- An epoch with one validator. -/
def firstEpoch : EpochState where
  epoch := 1
  verifier :=
    { addressToValidatorInfo := OrderedMap.empty.insert 0 ⟨⟨7⟩, 1⟩
      quorumVotingPower := 1
      totalVotingPower := 1 }

/-- The validators of the first epoch, one epoch later. -/
def secondEpoch : EpochState :=
  { firstEpoch with epoch := 2 }

def firstEpochSignature : Signature :=
  symbolic.sign ⟨7⟩ (.timeoutSigningRepr (startTimeout symbolic 1).signingFormat)

/-- A timeout certificate that was formed in the first epoch. -/
def firstEpochTc : TwoChainTimeoutCertificate where
  timeout := startTimeout symbolic 1
  signatures := OrderedMap.empty.insert 0 (0, firstEpochSignature)

/--
A certificate of the first epoch serves in the second.  The validator signs the
timeout in the first epoch; in the second epoch, with the same key, the certificate is
accepted from a peer, and a vote that is refused without it is cast with it.
-/
theorem firstEpochTc_accepted_in_secondEpoch :
    (guardedSignTimeoutWithQc symbolic (startTimeout symbolic 1)
      none (startRules firstEpoch)).1 = .ok firstEpochSignature ∧
    firstEpochTc.epoch = 1 ∧
    (startSyncInfo symbolic 2 firstEpochTc).epoch = 2 ∧
    (startSyncInfo symbolic 2 firstEpochTc).verify symbolic secondEpoch.verifier = .ok () ∧
    (startRules secondEpoch).persisted.epoch = 2 ∧
    (guardedConstructAndSignVoteTwoChain symbolic 0 (startProposal symbolic 2 2)
      (some firstEpochTc)).Returns (startRules secondEpoch) ∧
    ¬ (guardedConstructAndSignVoteTwoChain symbolic 0
      (startProposal symbolic 2 2) none).Returns (startRules secondEpoch) ∧
    (guardedSignTimeoutWithQc symbolic (startTimeout symbolic 2)
      (some firstEpochTc)).Returns (startRules secondEpoch) := by
  refine ⟨rfl, rfl, rfl, rfl, rfl, ⟨_, rfl⟩, ?_, ⟨_, rfl⟩⟩
  rintro ⟨vote, returned⟩
  cases returned

end Diem
