import Diem.ConsensusTypes

namespace Diem

open Fallible VerifyError OrderedMap

/-!
# Verification of votes and certificates

The checks a validator makes on what it receives, with the texts they report.  A
context added to an error hides the text of its cause, so a function that adds one
keeps the outer text only.  Account addresses inside texts are written in decimal.
-/

namespace VerifyError

/-- The text of a verification error. -/
def toString : VerifyError → String
  | .unknownAuthor => "Author is unknown"
  | .tooLittleVotingPower votingPower quorumVotingPower =>
    s!"The voting power ({votingPower}) is less than quorum voting power " ++
      s!"({quorumVotingPower})"
  | .tooManySignatures numOfSignatures numOfAuthors =>
    s!"The number of signatures ({numOfSignatures}) is greater than total " ++
      s!"number of authors ({numOfAuthors})"
  | .invalidSignature => "Signature is invalid"
  | .inconsistentBlockInfo => "Inconsistent Block Info"

/-- Report a verification error by its text. -/
def report {α : Type} (result : Except VerifyError α) : Fallible α :=
  match result with
  | .ok value => .ok value
  | .error failure => .error (.error failure.toString)

@[simp] theorem report_eq_ok_iff {α : Type} {result : Except VerifyError α} {value : α} :
    report result = .ok value ↔ result = .ok value := by
  cases result <;> simp [report]

end VerifyError

namespace ValidatorVerifier

variable (crypto : Crypto) (verifier : ValidatorVerifier)

/-- Verify a signature of a known author. -/
def verify (author : AccountAddress) (message : Message)
    (signature : Signature) : Except VerifyError Unit :=
  match verifier.getPublicKey author with
  | some publicKey =>
    if crypto.verify publicKey message signature then
      .ok ()
    else
      .error .invalidSignature
  | none => .error .unknownAuthor

variable (message : Message) (aggregated : OrderedMap AccountAddress Signature)

/-- There are no more signatures than validators. -/
def checkNumOfSignatures : Except VerifyError Unit :=
  if aggregated.size > verifier.len then
    .error (.tooManySignatures aggregated.size verifier.len)
  else
    .ok ()

/-- Verify the signatures of a quorum one by one. -/
def verifyAggregatedStructSignature : Except VerifyError Unit := do
  verifier.checkNumOfSignatures aggregated
  verifier.checkVotingPower aggregated.keys
  forM aggregated.entries fun entry => verifier.verify crypto entry.1 message entry.2

/-- The public keys of the authors with their signatures. -/
def keysAndSignatures : List (PublicKey × Signature) :=
  aggregated.entries.filterMap fun entry =>
    (verifier.getPublicKey entry.1).map fun publicKey => (publicKey, entry.2)

/-- Verify the signatures of a quorum as a batch, and one by one if that fails. -/
def batchVerifyAggregatedSignatures : Except VerifyError Unit := do
  verifier.checkNumOfSignatures aggregated
  verifier.checkVotingPower aggregated.keys
  if crypto.batchVerify message (verifier.keysAndSignatures aggregated) then
    return ()
  else
    verifier.verifyAggregatedStructSignature crypto message aggregated

/-- A signature verifies under the key registered for its author. -/
def SignedBy (author : AccountAddress) (message : Message) (signature : Signature) : Prop :=
  ∃ publicKey,
    verifier.getPublicKey author = some publicKey ∧ crypto.verify publicKey message signature = true

variable {crypto : Crypto} {verifier : ValidatorVerifier} {message : Message}

/-- `verify` accepts exactly the signatures of known authors. -/
theorem verify_ok_iff {author : AccountAddress} {signature : Signature} :
    verifier.verify crypto author message signature = .ok () ↔
      verifier.SignedBy crypto author message signature := by
  unfold verify SignedBy
  cases verifier.getPublicKey author with
  | none => simp
  | some publicKey =>
    by_cases valid : crypto.verify publicKey message signature = true <;> simp [valid]

variable {aggregated : OrderedMap AccountAddress Signature}

/-- What `verifyAggregatedStructSignature` accepts. -/
theorem verifyAggregatedStructSignature_ok_iff :
    verifier.verifyAggregatedStructSignature crypto message aggregated = .ok () ↔
      verifier.checkNumOfSignatures aggregated = .ok () ∧
      verifier.checkVotingPower aggregated.keys = .ok () ∧
      ∀ author signature, aggregated.get? author = some signature →
        verifier.SignedBy crypto author message signature := by
  simp only [verifyAggregatedStructSignature, check_eq_ok_iff, forM_eq_ok_iff, verify_ok_iff,
    get?_eq_some_iff, Prod.forall]

/-- The signatures a sound batch accepts are a quorum's, each of them valid. -/
theorem batchVerifyAggregatedSignatures_ok (sound : crypto.BatchSound)
    (accepted : verifier.batchVerifyAggregatedSignatures crypto message aggregated = .ok ()) :
    verifier.checkVotingPower aggregated.keys = .ok () ∧
    ∀ author signature, aggregated.get? author = some signature →
      verifier.SignedBy crypto author message signature := by
  simp only [batchVerifyAggregatedSignatures, check_eq_ok_iff] at accepted
  obtain ⟨-, power, accepted⟩ := accepted
  refine ⟨power, ?_⟩
  split at accepted
  · rename_i batch
    intro author signature member
    have known : author ∈ verifier.getOrderedAccountAddresses :=
      (checkVotingPower_ok_iff.mp power).1 author (mem_keys_iff.mpr ⟨signature, member⟩)
    obtain ⟨info, lookup⟩ := mem_keys_iff.mp known
    have registered : verifier.getPublicKey author = some info.publicKey := by
      simp [getPublicKey, lookup]
    exact ⟨info.publicKey, registered,
      sound _ _ batch (_, signature) (List.mem_filterMap.mpr
        ⟨(author, signature), get?_eq_some_iff.mp member, by simp [registered]⟩)⟩
  · exact (verifyAggregatedStructSignature_ok_iff.mp accepted).2.2

/-- Valid signatures of a quorum are accepted, whatever the batch says. -/
theorem batchVerifyAggregatedSignatures_of_signed
    (count : verifier.checkNumOfSignatures aggregated = .ok ())
    (power : verifier.checkVotingPower aggregated.keys = .ok ())
    (signed : ∀ author signature, aggregated.get? author = some signature →
      verifier.SignedBy crypto author message signature) :
    verifier.batchVerifyAggregatedSignatures crypto message aggregated = .ok () := by
  simp only [batchVerifyAggregatedSignatures, check_eq_ok_iff]
  refine ⟨count, power, ?_⟩
  split
  · rfl
  · exact verifyAggregatedStructSignature_ok_iff.mpr ⟨count, power, signed⟩

end ValidatorVerifier

variable (crypto : Crypto)

namespace LedgerInfoWithSignatures

variable (signed : LedgerInfoWithSignatures) (validator : ValidatorVerifier)

/-- A quorum signed the ledger info. -/
def verifySignatures : Except VerifyError Unit :=
  validator.batchVerifyAggregatedSignatures crypto (.ledgerInfo signed.ledgerInfo) signed.signatures

/-- The signers have the power of a quorum. -/
def checkVotingPower : Except VerifyError Unit :=
  validator.checkVotingPower signed.signatures.keys

end LedgerInfoWithSignatures

namespace VoteData

/-- The proposed block fits its parent. -/
def verify (data : VoteData) : Fallible Unit := do
  ensure (data.parent.epoch = data.proposed.epoch) "Parent and proposed epochs do not match"
  ensure (data.parent.round < data.proposed.round) "Proposed round is less than parent round"
  ensure (data.parent.timestampUsecs ≤ data.proposed.timestampUsecs)
    "Proposed happened before parent"
  ensure (data.proposed.version = 0 ∨ data.parent.version ≤ data.proposed.version)
    "Proposed version is less than parent version"

end VoteData

namespace QuorumCert

/--
A quorum certified the block; a certificate of round zero stands for a genesis block
and carries no signatures.
-/
def verify (cert : QuorumCert) (validator : ValidatorVerifier) : Fallible Unit := do
  ensure (cert.ledgerInfo.ledgerInfo.consensusDataHash = crypto.hashVoteData cert.voteData)
    "Quorum Cert's hash mismatch LedgerInfo"
  if cert.certifiedBlock.round = 0 then do
    ensure (cert.parentBlock = cert.certifiedBlock)
      "Genesis QC has inconsistent parent block with certified block"
    ensure (cert.certifiedBlock = cert.ledgerInfo.ledgerInfo.commitInfo)
      "Genesis QC has inconsistent commit block with certified block"
    ensure cert.ledgerInfo.signatures.isEmpty "Genesis QC should not carry signatures"
  else do
    context (report (cert.ledgerInfo.verifySignatures crypto validator)) "Fail to verify QuorumCert"
    cert.voteData.verify

variable {crypto : Crypto} {validator : ValidatorVerifier}

/-- What an accepted certificate says about the block it certifies. -/
theorem verify_ok {cert : QuorumCert} (accepted : cert.verify crypto validator = .ok ()) :
    cert.ledgerInfo.ledgerInfo.consensusDataHash = crypto.hashVoteData cert.voteData ∧
      (cert.certifiedBlock.round ≠ 0 → cert.ledgerInfo.verifySignatures crypto validator = .ok () ∧
        cert.parentBlock.round < cert.certifiedBlock.round) := by
  rw [verify, check_eq_ok_iff, ensure_eq_ok_iff] at accepted
  obtain ⟨sameHash, accepted⟩ := accepted
  refine ⟨sameHash, ?_⟩
  intro notGenesis
  rw [if_neg notGenesis] at accepted
  simp only [check_eq_ok_iff, context_eq_ok_iff,
    report_eq_ok_iff, VoteData.verify, ensure_eq_ok_iff]
    at accepted
  obtain ⟨signed, -, increasing, -⟩ := accepted
  exact ⟨signed, increasing⟩

/--
The unsigned certificate of a block that an epoch starts with, as
`certificate_for_genesis_from_ledger_info` builds it for its ancestor.
-/
def ofGenesis (crypto : Crypto) (ancestor : BlockInfo) : QuorumCert :=
  let voteData := { proposed := ancestor, parent := ancestor }
  { voteData
    signedLedgerInfo :=
      { ledgerInfo :=
          { commitInfo := ancestor, consensusDataHash := crypto.hashVoteData voteData }
        signatures := empty } }

theorem ofGenesis_verify {ancestor : BlockInfo} (isGenesis : ancestor.round = 0)
    (validator : ValidatorVerifier) :
    (ofGenesis crypto ancestor).verify crypto validator = .ok () := by
  simp [verify, ofGenesis, certifiedBlock, parentBlock, ledgerInfo, isGenesis,
    isEmpty, empty, check_eq_ok_iff]

end QuorumCert

namespace TimeoutCertificate

/-- A quorum signed the timeout. -/
def verify (cert : TimeoutCertificate) (validator : ValidatorVerifier) : Fallible Unit :=
  context
    (report
      (validator.verifyAggregatedStructSignature crypto (.timeout cert.timeout) cert.signatures))
    "Failed to verify TimeoutCertificate"

end TimeoutCertificate

namespace TwoChainTimeout

/-- The certificate in the timeout is valid and of an earlier round. -/
def verify (timeout : TwoChainTimeout) (validators : ValidatorVerifier) : Fallible Unit := do
  ensure (timeout.hqcRound < timeout.round) "Timeout round should be larger than the QC round"
  timeout.quorumCert.verify crypto validators

end TwoChainTimeout

namespace TwoChainTimeoutCertificate

variable (crypto : Crypto) (cert : TwoChainTimeoutCertificate)
  (validators : ValidatorVerifier)

/-- What the signer of an entry signed. -/
def signedTimeout (qcRound : Nat) : TimeoutSigningRepr where
  epoch := cert.timeout.epoch
  round := cert.timeout.round
  hqcRound := qcRound

/-- One iteration of the loop that verifies the signatures. -/
def verifyEntry (signedRound : Nat) (entry : AccountAddress × (Nat × Signature)) :
    Fallible Nat := do
  context
    (report
      (validators.verify crypto entry.1
        (.timeoutSigningRepr (cert.signedTimeout entry.2.1)) entry.2.2))
    (s!"Failed to verify {entry.1}'s TimeoutSigningRepr")
  return max signedRound entry.2.1

/--
A quorum signed timeouts of the round, and the certificate in the timeout has the
highest round any of them signed.
-/
def verify : Fallible Unit := do
  cert.timeout.verify crypto validators
  let hqcRound := cert.timeout.hqcRound
  report (validators.checkVotingPower cert.signatures.keys)
  let signedRound ← cert.signatures.entries.foldlM (cert.verifyEntry crypto validators) 0
  ensure (hqcRound = signedRound)
    (s!"Inconsistent hqc round, qc has round {hqcRound}, " ++
      s!"highest signed round {signedRound}")

variable {crypto cert validators}

/-- The loop over the signatures bounds the rounds of all valid entries. -/
theorem foldlM_verifyEntry_ok {entries : List (AccountAddress × (Nat × Signature))}
    {signedRound result : Nat}
    (accepted : entries.foldlM (cert.verifyEntry crypto validators) signedRound = .ok result) :
    signedRound ≤ result ∧
    ∀ entry ∈ entries, entry.2.1 ≤ result ∧ validators.SignedBy crypto entry.1
      (.timeoutSigningRepr (cert.signedTimeout entry.2.1)) entry.2.2 := by
  induction entries generalizing signedRound with
  | nil =>
    cases accepted
    simp
  | cons entry rest ih =>
    rw [List.foldlM_cons, bind_eq_ok_iff] at accepted
    obtain ⟨nextRound, verified, accepted⟩ := accepted
    simp only [verifyEntry, check_eq_ok_iff, context_eq_ok_iff, report_eq_ok_iff,
      ValidatorVerifier.verify_ok_iff] at verified
    obtain ⟨signed, nextIsMax⟩ := verified
    cases nextIsMax
    obtain ⟨below, others⟩ := ih accepted
    refine ⟨(le_max_left _ _).trans below, ?_⟩
    intro query member
    rcases List.mem_cons.mp member with isEntry | inRest
    · subst query
      exact ⟨(le_max_right _ _).trans below, signed⟩
    · exact others query inRest

/-- What an accepted timeout certificate says about its signers. -/
theorem verify_ok (accepted : cert.verify crypto validators = .ok ()) :
    validators.checkVotingPower cert.signatures.keys = .ok () ∧
    ∀ author qcRound signature, cert.signatures.get? author = some (qcRound, signature) →
      qcRound ≤ cert.highestHqcRound ∧ validators.SignedBy crypto author
        (.timeoutSigningRepr (cert.signedTimeout qcRound)) signature := by
  simp only [verify, check_eq_ok_iff, report_eq_ok_iff] at accepted
  obtain ⟨-, power, accepted⟩ := accepted
  obtain ⟨signedRound, loop, accepted⟩ := bind_eq_ok_iff.mp accepted
  have highest : cert.timeout.hqcRound = signedRound := ensure_eq_ok_iff.mp accepted
  refine ⟨power, ?_⟩
  intro author qcRound signature member
  obtain ⟨below, signed⟩ := (foldlM_verifyEntry_ok loop).2 _ (get?_eq_some_iff.mp member)
  exact ⟨below.trans_eq highest.symm, signed⟩

end TwoChainTimeoutCertificate

namespace SyncInfo

variable (info : SyncInfo)

/-- The highest ordered certificate, the quorum certificate if none is given. -/
def highestOrderedCert : QuorumCert :=
  info.highestOrderedCert?.getD info.highestQuorumCert

def highestLedgerInfo : LedgerInfoWithSignatures :=
  info.highestLedgerInfo?.getD info.highestOrderedCert.ledgerInfo

def highestLedgerInfoRound : Nat :=
  info.highestLedgerInfo.commitInfo.round

def epoch : Nat := info.highestQuorumCert.certifiedBlock.epoch

/-- The certificates fit together, before any signature is looked at. -/
def verifyShape : Fallible Unit := do
  ensure (info.epoch = info.highestOrderedCert.certifiedBlock.epoch)
    "Multi epoch in SyncInfo - HOC and HQC"
  whenSome info.highestTimeoutCert fun cert =>
    ensure (info.epoch = cert.timeout.epoch) "Multi epoch in SyncInfo - TC and HQC"
  ensure
    (info.highestQuorumCert.certifiedBlock.round ≥ info.highestOrderedCert.certifiedBlock.round)
    "HQC has lower round than HOC"
  ensure (info.highestOrderedCert.certifiedBlock.round ≥ info.highestLedgerInfoRound)
    "HOC has lower round than HLI"
  ensure (info.highestOrderedCert.commitInfo ≠ BlockInfo.empty) "HOC has no committed block"
  ensure (info.highestLedgerInfo.commitInfo ≠ BlockInfo.empty) "HLI has empty commit info"
  ensure (info.highestTimeoutCert = none ∨ info.highestTwoChainTimeoutCert = none)
    "Only One timeout cert should be carried"

variable (crypto : Crypto) (info : SyncInfo) (validator : ValidatorVerifier)

/-- The signatures of all certificates are valid. -/
def verifyCertificates : Fallible Unit := do
  info.highestQuorumCert.verify crypto validator
  whenSome info.highestOrderedCert? fun cert => cert.verify crypto validator
  whenSome info.highestTimeoutCert fun cert => cert.verify crypto validator
  whenSome info.highestLedgerInfo? fun signed =>
    if signed.commitInfo.round > 0 then
      report (signed.verifySignatures crypto validator)
    else
      pure ()
  whenSome info.highestTwoChainTimeoutCert fun cert => cert.verify crypto validator

/-- The certificates fit together and their signatures are valid. -/
def verify : Fallible Unit := do
  info.verifyShape
  context (info.verifyCertificates crypto validator) "Fail to verify SyncInfo"

end SyncInfo

end Diem
