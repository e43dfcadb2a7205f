import Diem.SafetyRulesRuns

namespace Diem

open SafetyRules

/-!
# The validators of an epoch

Every honest validator runs one instance of the safety rules on storage of its own.
The instances are called in any order and with any arguments, and each of them can be
restarted at any time.  The log holds what honest validators have signed and released.

Faulty validators are not modelled by a state: they can sign anything, so nothing is
assumed about their signatures.  A signature of an honest validator that verifies is
one that the validator has released, and this is all that is assumed about the
arguments of a call.
-/

/-- What is signed, with the validator that signed it. -/
abbrev SignatureLog := List (AccountAddress × Message)

/-- The epoch that the validators are in, and which of them are faulty. -/
structure Setting where
  crypto : Crypto
  epochState : EpochState
  faulty : List AccountAddress

/-- The instances of the honest validators, and what they have released. -/
structure ConsensusSystem where
  replicas : AccountAddress → SafetyRules
  log : SignatureLog

namespace SafetyRules

/-- The instance after an event, with the messages whose signatures it releases. -/
def react (crypto : Crypto) (rules : SafetyRules) : Event → SafetyRules × List Message
  | .call call answers =>
    let outcome := perform crypto call (rules.withAnswers answers)
    (outcome.2, (released call outcome.1).messages)
  | .restart configuration => (rules.restart configuration, [])

end SafetyRules

namespace ConsensusSystem

variable (crypto : Crypto) (system : ConsensusSystem)

/-- An event at one validator. -/
def advance (author : AccountAddress) (event : Event) : ConsensusSystem :=
  let reaction := (system.replicas author).react crypto event
  { replicas := Function.update system.replicas author reaction.1
    log := reaction.2.map (Prod.mk author) ++ system.log }

/-- Events at any validators, one after the other. -/
def run (events : List (AccountAddress × Event)) : ConsensusSystem :=
  events.foldl (fun system event => system.advance crypto event.1 event.2) system

end ConsensusSystem

namespace Setting

variable (setting : Setting) (log : SignatureLog)

/-- A valid signature of an honest validator is one it has released. -/
def Unforged (author : AccountAddress) (message : Message) (signature : Signature) : Prop :=
  author ∉ setting.faulty →
  setting.epochState.verifier.SignedBy setting.crypto author message signature →
    (author, message) ∈ log

/-- The signatures on a ledger info are not forged. -/
def Authentic (signed : LedgerInfoWithSignatures) : Prop :=
  ∀ author signature, signed.signatures.get? author = some signature →
    setting.Unforged log author (.ledgerInfo signed.ledgerInfo) signature

/-- The signatures in a timeout certificate are not forged. -/
def AuthenticTc (tc : TwoChainTimeoutCertificate) : Prop :=
  ∀ author qcRound signature, tc.signatures.get? author = some (qcRound, signature) →
    setting.Unforged log author (.timeoutSigningRepr (tc.signedTimeout qcRound)) signature

/--
What is assumed about the arguments of a call.  An epoch change leads to the epoch of
the setting; the certificates that a vote rests on are not forged.
-/
def Admissible : Call → Prop
  | .initializeWith proof =>
    ∀ epochState, proof.LeadsTo epochState → epochState = setting.epochState
  | .constructAndSignVote _ proposal =>
    setting.Authentic log proposal.voteProposal.block.quorumCert.ledgerInfo
  | .constructAndSignVoteTwoChain _ proposal timeoutCert =>
    setting.Authentic log proposal.voteProposal.block.quorumCert.ledgerInfo ∧
      ∀ tc, timeoutCert = some tc → setting.AuthenticTc log tc
  | .signTimeout _ => True
  | .signTimeoutWithQc _ _ => True
  | .signProposal _ => True

/-- A restart can happen at any time, a call if it is permitted and admissible. -/
def Allowed (permits : Call → Prop) (log : SignatureLog) : Event → Prop
  | .call call _ => permits call ∧ setting.Admissible log call
  | .restart _ => True

/-- A validator that has signed nothing in the epoch. -/
structure Fresh (rules : SafetyRules) : Prop where
  cacheAgrees : rules.persistentStorage.CacheAgrees
  notEntered : rules.epochState = none
  nothingSigned : rules.persisted.epoch = setting.epochState.epoch →
    rules.persisted = freshSafetyData setting.epochState.epoch

/-- The systems that the honest validators can reach with the permitted calls. -/
inductive Reachable (setting : Setting) (permits : Call → Prop) : ConsensusSystem → Prop where
  | start (replicas : AccountAddress → SafetyRules)
      (fresh : ∀ author ∉ setting.faulty, setting.Fresh (replicas author)) :
      Reachable setting permits { replicas, log := [] }
  | step (system : ConsensusSystem) (author : AccountAddress) (event : Event)
      (reachable : Reachable setting permits system)
      (honest : author ∉ setting.faulty)
      (allowed : setting.Allowed permits system.log event) :
      Reachable setting permits (system.advance setting.crypto author event)

/-- A certificate that verifies, with signatures that are not forged. -/
structure Supported (qc : QuorumCert) : Prop where
  verified : qc.verify setting.crypto setting.epochState.verifier = .ok ()
  authentic : setting.Authentic log qc.ledgerInfo

/-- A timeout certificate that verifies, with signatures that are not forged. -/
structure SupportedTc (tc : TwoChainTimeoutCertificate) : Prop where
  verified : tc.verify setting.crypto setting.epochState.verifier = .ok ()
  authentic : setting.AuthenticTc log tc

variable {setting log} {later : SignatureLog}

theorem Authentic.mono {signed : LedgerInfoWithSignatures} (grows : log ⊆ later)
    (authentic : setting.Authentic log signed) : setting.Authentic later signed :=
  fun author signature found honest valid => grows (authentic author signature found honest valid)

theorem AuthenticTc.mono {tc : TwoChainTimeoutCertificate} (grows : log ⊆ later)
    (authentic : setting.AuthenticTc log tc) : setting.AuthenticTc later tc :=
  fun author qcRound signature found honest valid =>
    grows (authentic author qcRound signature found honest valid)

theorem Supported.mono {qc : QuorumCert} (grows : log ⊆ later)
    (supported : setting.Supported log qc) : setting.Supported later qc :=
  ⟨supported.verified, supported.authentic.mono grows⟩

theorem SupportedTc.mono {tc : TwoChainTimeoutCertificate} (grows : log ⊆ later)
    (supported : setting.SupportedTc log tc) : setting.SupportedTc later tc :=
  ⟨supported.verified, supported.authentic.mono grows⟩

/-- What can be called can still be called when more was signed. -/
theorem Admissible.mono {call : Call} (grows : log ⊆ later)
    (admissible : setting.Admissible log call) : setting.Admissible later call := by
  cases call with
  | constructAndSignVote => exact Authentic.mono grows admissible
  | constructAndSignVoteTwoChain =>
    exact ⟨admissible.1.mono grows, fun tc isTc => (admissible.2 tc isTc).mono grows⟩
  | _ => exact admissible

variable (setting) in
/-- The same call at several validators, which meets no fault. -/
def callAll (authors : List AccountAddress) (call : Call) (system : ConsensusSystem) :
    ConsensusSystem :=
  system.run setting.crypto (authors.map fun author => (author, .call call ⟨[], []⟩))

theorem Reachable.callAll {permits : Call → Prop} {authors : List AccountAddress} {call : Call}
    {system : ConsensusSystem} (reachable : setting.Reachable permits system)
    (honest : ∀ author ∈ authors, author ∉ setting.faulty) (permitted : permits call)
    (admissible : setting.Admissible system.log call) :
    setting.Reachable permits (setting.callAll authors call system) := by
  induction authors generalizing system with
  | nil => exact reachable
  | cons author authors ih =>
    exact ih (.step system author _ reachable (honest author List.mem_cons_self)
        ⟨permitted, admissible⟩)
      (fun other member => honest other (List.mem_cons_of_mem _ member))
      (admissible.mono (List.subset_append_right _ _))

variable (setting log) in
/-- What a signed ledger info says about the block that was voted for. -/
structure VoteRecord (info : LedgerInfo) (voteData : VoteData) (block : Block) : Prop where
  hash : info.consensusDataHash = setting.crypto.hashVoteData voteData
  id : voteData.proposed.id = block.id setting.crypto
  round : voteData.proposed.round = block.round
  parent : voteData.parent = block.quorumCert.certifiedBlock
  increasing : block.quorumCert.certifiedBlock.round < block.round
  supported : setting.Supported log block.quorumCert

variable {block : Block}

theorem VoteRecord.mono {info : LedgerInfo} {voteData : VoteData} (grows : log ⊆ later)
    (record : setting.VoteRecord log info voteData block) :
    setting.VoteRecord later info voteData block :=
  { record with supported := record.supported.mono grows }

/--
The safety data reflects a vote for the block: the voted round and the rounds that
its certificate shows.
-/
structure Covers (data : SafetyData) (block : Block) : Prop where
  lastVoted : block.round ≤ data.lastVotedRound
  oneChain : block.quorumCert.certifiedBlock.round ≤ data.oneChainRound
  preferred : block.quorumCert.parentBlock.round ≤ data.preferredRound

/-- Safety data that has moved on within an epoch. -/
structure MovedOn (earlier later : SafetyData) : Prop where
  epoch : later.epoch = earlier.epoch
  lastVoted : earlier.lastVotedRound ≤ later.lastVotedRound
  oneChain : earlier.oneChainRound ≤ later.oneChainRound
  preferred : earlier.preferredRound ≤ later.preferredRound

theorem Covers.mono {earlier later : SafetyData} (movedOn : MovedOn earlier later)
    (covers : Covers earlier block) : Covers later block where
  lastVoted := covers.lastVoted.trans movedOn.lastVoted
  oneChain := covers.oneChain.trans movedOn.oneChain
  preferred := covers.preferred.trans movedOn.preferred

end Setting

end Diem
