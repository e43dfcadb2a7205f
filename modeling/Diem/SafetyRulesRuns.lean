import Diem.SafetyRulesSpec

namespace Diem

open Stateful Satisfies

namespace SafetyRules

/-!
# Runs of the safety rules

A run is a sequence of calls and process restarts.  Every call meets a backend whose
answers are chosen freely, and a restart drops everything that is only in memory.
The run records the votes that were returned.
-/

/-- The calls that a run is made of. -/
inductive Call where
  | initializeWith (proof : EpochChangeProof)
  | constructAndSignVote (now : Nat) (proposal : MaybeSignedVoteProposal)
  | constructAndSignVoteTwoChain (now : Nat) (proposal : MaybeSignedVoteProposal)
      (timeoutCert : Option TwoChainTimeoutCertificate)
  | signTimeout (timeout : Timeout)
  | signTimeoutWithQc (timeout : TwoChainTimeout) (timeoutCert : Option TwoChainTimeoutCertificate)
  | signProposal (blockData : BlockData)
  deriving DecidableEq

/-- What a call returns. -/
inductive Response where
  | initialized
  | vote (vote : Vote)
  | signature (signature : Signature)
  deriving DecidableEq

variable (crypto : Crypto)

def perform : Call → Stateful SafetyRules Abort Response
  | .initializeWith proof => do
      guardedInitialize crypto proof
      return .initialized
  | .constructAndSignVote now proposal => do
      let vote ← guardedConstructAndSignVote crypto now proposal
      return .vote vote
  | .constructAndSignVoteTwoChain now proposal timeoutCert => do
      let vote ← guardedConstructAndSignVoteTwoChain crypto now proposal timeoutCert
      return .vote vote
  | .signTimeout timeout => do
      let signature ← guardedSignTimeout crypto timeout
      return .signature signature
  | .signTimeoutWithQc timeout timeoutCert => do
      let signature ← guardedSignTimeoutWithQc crypto timeout timeoutCert
      return .signature signature
  | .signProposal blockData => do
      let signature ← guardedSignProposal crypto blockData
      return .signature signature

/-- The answers of the backend to the calls made on it. -/
structure Answers where
  faults : List (Option StorageError)
  keyFaults : List (Option StorageError)
  deriving DecidableEq

/-- The instance with given answers pending. -/
def withAnswers (rules : SafetyRules) (answers : Answers) : SafetyRules :=
  { rules with
    persistentStorage :=
      { rules.persistentStorage with
        internalStore :=
          { rules.persistentStorage.internalStore with
            faults := answers.faults
            keyFaults := answers.keyFaults } } }

/-- The configuration a process is started with. -/
structure Configuration where
  enableCachedSafetyData : Bool
  verifyVoteProposalSignature : Bool
  exportConsensusKey : Bool
  deriving DecidableEq

/-- A new process over the same backend. -/
def restart (rules : SafetyRules) (configuration : Configuration) : SafetyRules :=
  SafetyRules.new
    (.new rules.persistentStorage.internalStore
      configuration.enableCachedSafetyData)
    configuration.verifyVoteProposalSignature
    configuration.exportConsensusKey

/-- What happens to an instance. -/
inductive Event where
  | call (call : Call) (answers : Answers)
  | restart (configuration : Configuration)
  deriving DecidableEq

/-- An instance with the votes it has returned. -/
structure History where
  rules : SafetyRules
  votes : List Vote
  deriving DecidableEq

/-- What leaves the instance signed. -/
inductive Released where
  | nothing
  | vote (vote : Vote)
  | timeout (timeout : TimeoutSigningRepr)
  | other (message : Message)
  deriving DecidableEq

namespace Released

def vote? : Released → Option Vote
  | .vote cast => some cast
  | _ => none

theorem eq_vote_of_mem {output : Released} {found : Vote} (member : found ∈ output.vote?.toList) :
    output = .vote found := by
  cases output <;> simp_all [vote?]

/-- The messages whose signatures were released. -/
def messages : Released → List Message
  | .nothing => []
  | .vote cast => [.ledgerInfo cast.ledgerInfo]
  | .timeout signed => [.timeoutSigningRepr signed]
  | .other message => [message]

end Released

/-- What a call releases when it returns. -/
def released : Call → Except Abort Response → Released
  | _, .ok (.vote vote) => .vote vote
  | .signTimeout timeout, .ok (.signature _) => .other (.timeout timeout)
  | .signTimeoutWithQc timeout _, .ok (.signature _) => .timeout timeout.signingFormat
  | .signProposal blockData, .ok (.signature _) => .other (.blockData blockData)
  | _, _ => .nothing

/-- One event of a run. -/
def advance (history : History) : Event → History
  | .call call answers =>
    let outcome := perform crypto call (history.rules.withAnswers answers)
    { rules := outcome.2
      votes := (released call outcome.1).vote?.toList ++ history.votes }
  | .restart configuration => { history with rules := history.rules.restart configuration }

/-- The events of a run, one after the other. -/
def run (history : History) (events : List Event) : History :=
  events.foldl (advance crypto) history

/-- A process over a backend that was set up for a new validator. -/
def started (internalStore : SecureStorage) (author : AccountAddress)
    (consensusKey executionKey : PublicKey) (waypoint : Waypoint)
    (configuration : Configuration) : History where
  rules := .new
    (.initializeStore internalStore author consensusKey executionKey waypoint
      configuration.enableCachedSafetyData)
    configuration.verifyVoteProposalSignature
    configuration.exportConsensusKey
  votes := []

variable {crypto : Crypto}

theorem Unchanged.refl {rules : SafetyRules} (agrees : rules.persistentStorage.CacheAgrees) :
    Unchanged rules rules :=
  ⟨⟨rfl, rfl, rfl, rfl, rfl, fun none => none, agrees⟩, rfl, rfl, rfl, rfl⟩

/-- The rule under which a call casts a new vote. -/
inductive VotingRule (crypto : Crypto) (before : SafetyRules) (proposal : MaybeSignedVoteProposal)
    (vote : Vote) : Call → Prop where
  | threeChain (now : Nat) (cast : CastVote crypto before proposal constructLedgerInfo vote)
      (preferred : before.persisted.preferredRound ≤
        proposal.voteProposal.block.quorumCert.certifiedBlock.round) :
      VotingRule crypto before proposal vote (.constructAndSignVote now proposal)
  | twoChain (now : Nat) (timeoutCert : Option TwoChainTimeoutCertificate)
      (cast : CastVote crypto before proposal constructLedgerInfo2chain vote)
      (verifiedTc : VerifiedTc crypto before timeoutCert)
      (safe : safeToVote proposal.voteProposal.block timeoutCert = .ok ()) :
      VotingRule crypto before proposal vote
        (.constructAndSignVoteTwoChain now proposal timeoutCert)

/-- What one call can do to an instance, with what it releases. -/
inductive Effect (crypto : Crypto) (before after : SafetyRules) : Call → Released → Prop where
  | quiet (call : Call) (same : Unchanged before after) : Effect crypto before after call .nothing
  | proposed (blockData : BlockData) (same : Unchanged before after) :
      Effect crypto before after (.signProposal blockData) (.other (.blockData blockData))
  | moved (proof : EpochChangeProof) (moved : Moved before proof after) :
      Effect crypto before after (.initializeWith proof) .nothing
  | again (call : Call) (vote : Vote) (last : before.persisted.lastVote = some vote)
      (entered : before.epochState.isSome)
      (same : Unchanged before after) :
      Effect crypto before after call (.vote vote)
  | cast (call : Call) (proposal : MaybeSignedVoteProposal) (vote : Vote)
      (rule : VotingRule crypto before proposal vote call)
      (written : Unchanged
        (before.withSafetyData (votedData before.persisted proposal.voteProposal.block vote))
        after) :
      Effect crypto before after call (.vote vote)
  | unreleased (call : Call) (round : Nat) (notEarlier : before.persisted.lastVotedRound ≤ round)
      (written : Unchanged (before.withSafetyData (timedOutData before.persisted round)) after) :
      Effect crypto before after call .nothing
  | timedOut (timeout : Timeout) (notEarlier : before.persisted.lastVotedRound ≤ timeout.round)
      (written :
        Unchanged (before.withSafetyData (timedOutData before.persisted timeout.round)) after) :
      Effect crypto before after (.signTimeout timeout) (.other (.timeout timeout))
  | timedOutWithQc (timeout : TwoChainTimeout) (timeoutCert : Option TwoChainTimeoutCertificate)
      (signed : SignedTimeout crypto before timeout timeoutCert)
      (written :
        Unchanged (before.withSafetyData (timedOutData before.persisted timeout.round)) after) :
      Effect crypto before after (.signTimeoutWithQc timeout timeoutCert)
        (.timeout timeout.signingFormat)

variable {round : Nat}

variable {before : SafetyRules} {vote : Vote} {proposal : MaybeSignedVoteProposal}

section

variable {call : Call} (rule : VotingRule crypto before proposal vote call)
include rule

/-- What every voting rule guarantees about the proposal and the vote. -/
theorem VotingRule.verified :
    VerifiedProposal crypto before proposal vote.voteData ∧
      before.persisted.lastVotedRound < proposal.voteProposal.block.round := by
  cases rule with
  | threeChain now cast preferred => exact ⟨cast.verified, cast.later⟩
  | twoChain now timeoutCert cast verifiedTc safe => exact ⟨cast.verified, cast.later⟩

/-- A new vote is for the epoch of the safety data and the round of the block. -/
theorem VotingRule.epoch_round :
    vote.epoch = before.persisted.epoch ∧ vote.round = proposal.voteProposal.block.round := by
  obtain ⟨verified, -⟩ := rule.verified
  obtain ⟨executedStateId, version, shape⟩ := verified.voteData
  rw [Vote.epoch, Vote.round, shape]
  exact ⟨verified.epoch, rfl⟩

end

variable {after : SafetyRules}

theorem TimeoutFailed.effect (failed : TimeoutFailed before round after) (call : Call) :
    Effect crypto before after call .nothing := by
  rcases failed with same | ⟨-, notEarlier, written⟩
  · exact .quiet call same
  · exact .unreleased call round notEarlier written

/-- Every call has one of the effects, whatever it returns. -/
theorem perform_satisfies (call : Call) :
    (perform crypto call).Satisfies (Unchanged before)
      (fun response after => Effect crypto before after call (released call (.ok response)))
      (fun _ after => Effect crypto before after call .nothing) := by
  cases call with
  | initializeWith proof =>
    refine andThen guardedInitialize_satisfies (fun _ _ moved => .moved proof moved) ?_
    intro _
    exact ret fun _ moved => .moved proof moved
  | constructAndSignVote now proposal =>
    refine andThen guardedConstructAndSignVote_satisfies (fun _ _ same => .quiet _ same) ?_
    intro vote
    refine ret ?_
    rintro _ (⟨last, -, entered, same⟩ | ⟨cast, preferred, written⟩)
    · exact .again _ vote last entered same
    · exact .cast _ proposal vote (.threeChain now cast preferred) written
  | constructAndSignVoteTwoChain now proposal timeoutCert =>
    refine andThen guardedConstructAndSignVoteTwoChain_satisfies (fun _ _ same => .quiet _ same) ?_
    intro vote
    refine ret ?_
    rintro _ ⟨verifiedTc, ⟨last, -, entered, same⟩ | ⟨cast, safe, written⟩⟩
    · exact .again _ vote last entered same
    · exact .cast _ proposal vote (.twoChain now timeoutCert cast verifiedTc safe) written
  | signTimeout timeout =>
    refine andThen guardedSignTimeout_satisfies (fun _ _ failed => failed.effect _) ?_
    intro signature
    exact ret fun _ recorded => .timedOut timeout recorded.1 recorded.2
  | signTimeoutWithQc timeout timeoutCert =>
    refine andThen guardedSignTimeoutWithQc_satisfies (fun _ _ failed => failed.effect _) ?_
    intro signature
    exact ret fun _ recorded => .timedOutWithQc timeout timeoutCert recorded.1 recorded.2
  | signProposal blockData =>
    refine andThen guardedSignProposal_observes (fun _ _ same => .quiet _ same) ?_
    intro signature
    exact ret fun _ observed => .proposed blockData observed.2

/-- The effect of a call on the instance it is made on. -/
theorem perform_effect (crypto : Crypto) (agrees : before.persistentStorage.CacheAgrees)
    (call : Call) :
    Effect crypto before (perform crypto call before).2 call
      (released call (perform crypto call before).1) := by
  obtain ⟨values, failures⟩ := perform_satisfies call before (.refl agrees)
  cases result : (perform crypto call before).1 with
  | ok response => exact values response result
  | error failure => exact failures failure result

/-- Safety data only moves forward. -/
def Forward (earlier later : SafetyData) : Prop :=
  earlier.epoch < later.epoch ∨
  (earlier.epoch = later.epoch ∧ earlier.lastVotedRound ≤ later.lastVotedRound ∧
    earlier.oneChainRound ≤ later.oneChainRound ∧
    earlier.preferredRound ≤ later.preferredRound)

theorem Forward.refl (data : SafetyData) : Forward data data := Or.inr ⟨rfl, le_rfl, le_rfl, le_rfl⟩

theorem Forward.trans {first second third : SafetyData} (early : Forward first second)
    (late : Forward second third) : Forward first third := by
  unfold Forward at *
  omega

/-- The persisted part of an instance only moves forward. -/
structure Progress (before after : SafetyRules) : Prop where
  data : Forward before.persisted after.persisted
  waypoint : before.persistentStorage.internalStore.waypoint.version ≤
    after.persistentStorage.internalStore.waypoint.version

theorem Progress.refl (rules : SafetyRules) : Progress rules rules := ⟨.refl _, le_rfl⟩

theorem Progress.trans {first second third : SafetyRules} (early : Progress first second)
    (late : Progress second third) : Progress first third :=
  ⟨early.data.trans late.data, early.waypoint.trans late.waypoint⟩

variable {output : Released}

/-- What an effect can make of an instance, up to the copy and the pending answers. -/
structure Outcome (before : SafetyRules) (output : Released) (target : SafetyRules) : Prop where
  data : Forward before.persisted target.persisted
  waypoint : before.persistentStorage.internalStore.waypoint.version ≤
    target.persistentStorage.internalStore.waypoint.version
  signerHeld : before.SignerHeld → target.SignerHeld
  lastVote : ∀ vote, target.persisted.lastVote = some vote →
    (before.persisted.lastVote = some vote ∧ target.persisted.epoch = before.persisted.epoch) ∨
    (output = .vote vote ∧ vote.epoch = target.persisted.epoch)

theorem Outcome.refl : Outcome before output before :=
  ⟨.refl _, le_rfl, fun held => held, fun _ isLast => .inl ⟨isLast, rfl⟩⟩

theorem Outcome.timedOut (notEarlier : before.persisted.lastVotedRound ≤ round) :
    Outcome before output (before.withSafetyData (timedOutData before.persisted round)) :=
  { Outcome.refl with data := .inr ⟨rfl, notEarlier, le_rfl, le_rfl⟩ }

theorem Outcome.moved {proof : EpochChangeProof} {target : SafetyRules}
    (move : EpochMove before proof target) : Outcome before output target := by
  rcases move.epoch with ⟨kept, -⟩ | ⟨epochState, -, -, -, entered⟩
  · refine ⟨?_, move.waypoint, move.signerHeld, ?_⟩ <;> rw [kept]
    · exact .refl _
    · exact fun _ isLast => .inl ⟨isLast, rfl⟩
  · refine ⟨?_, move.waypoint, move.signerHeld, ?_⟩ <;> rw [entered, epochData] <;> split
    · exact .inl ‹_›
    · exact .refl _
    · intro _ isLast
      cases isLast
    · exact fun _ isLast => .inl ⟨isLast, rfl⟩

section

variable {call : Call} (effect : Effect crypto before after call output)
include effect

theorem Effect.target : ∃ target, Unchanged target after ∧ Outcome before output target := by
  cases effect with
  | quiet _ same => exact ⟨before, same, .refl⟩
  | proposed _ same => exact ⟨before, same, .refl⟩
  | moved proof moved =>
    obtain ⟨target, move, same⟩ := moved
    exact ⟨target, same, .moved move⟩
  | again _ _ _ _ same => exact ⟨before, same, .refl⟩
  | cast _ proposal vote rule written =>
    refine ⟨_, written, .inr ⟨rfl, rule.verified.2.le, le_max_left _ _, le_max_left _ _⟩,
      le_rfl, fun held => held, ?_⟩
    rintro _ ⟨⟩
    exact .inr ⟨rfl, rule.epoch_round.1⟩
  | unreleased _ round notEarlier written => exact ⟨_, written, .timedOut notEarlier⟩
  | timedOut _ notEarlier written => exact ⟨_, written, .timedOut notEarlier⟩
  | timedOutWithQc _ _ signed written => exact ⟨_, written, .timedOut signed.later⟩

theorem Effect.progress : Progress before after := by
  obtain ⟨target, same, outcome⟩ := effect.target
  refine ⟨?_, ?_⟩
  · rw [same.persisted]
    exact outcome.data
  · rw [same.storage.waypoint]
    exact outcome.waypoint

end

/-- The invariant of a run. -/
structure Valid (history : History) : Prop where
  cacheAgrees : history.rules.persistentStorage.CacheAgrees
  signerHeld : history.rules.SignerHeld
  lastVote : ∀ vote, history.rules.persisted.lastVote = some vote →
    vote ∈ history.votes ∧ vote.epoch = history.rules.persisted.epoch
  bounded : ∀ vote ∈ history.votes, vote.epoch < history.rules.persisted.epoch ∨
    (vote.epoch = history.rules.persisted.epoch ∧
      vote.round ≤ history.rules.persisted.lastVotedRound)
  unique : ∀ first ∈ history.votes, ∀ second ∈ history.votes, first.epoch = second.epoch →
    first.round = second.round → first = second

/-- A signer whose key is held stays one. -/
theorem Unchanged.signerHeld (same : Unchanged before after) (held : before.SignerHeld) :
    after.SignerHeld := by
  intro signer isSigner
  rw [same.validatorSigner] at isSigner
  have heldBefore := held signer isSigner
  cases signer with
  | signer author consensusKey => trivial
  | handle author keyVersion =>
    change keyVersion ∈ after.persistentStorage.internalStore.consensusKeys
    rw [same.storage.consensusKeys]
    exact heldBefore

variable {history : History}

/-- A returned vote is recorded already, or is above every vote of its epoch. -/
theorem Effect.returned {call : Call} (valid : Valid history)
    (effect : Effect crypto history.rules after call (.vote vote)) :
    vote ∈ history.votes ∨
    ((vote.epoch = after.persisted.epoch ∧ vote.round ≤ after.persisted.lastVotedRound) ∧
      ∀ other ∈ history.votes, other.epoch = vote.epoch → other.round < vote.round) := by
  cases effect with
  | again _ _ last _ _ => exact .inl (valid.lastVote vote last).1
  | cast _ proposal _ rule written =>
    obtain ⟨epoch, round⟩ := rule.epoch_round
    have later := rule.verified.2
    rw [written.persisted]
    refine .inr ⟨⟨epoch, round.le⟩, ?_⟩
    intro other member sameEpoch
    have bounded := valid.bounded other member
    omega

/-- One call keeps the invariant. -/
theorem Valid.call {call : Call} (valid : Valid history)
    (effect : Effect crypto history.rules after call output) :
    Valid { rules := after, votes := output.vote?.toList ++ history.votes } where
  cacheAgrees := by
    obtain ⟨target, same, -⟩ := effect.target
    exact same.storage.cacheAgrees
  signerHeld := by
    obtain ⟨target, same, outcome⟩ := effect.target
    exact same.signerHeld (outcome.signerHeld valid.signerHeld)
  lastVote := by
    intro vote isLast
    obtain ⟨target, same, outcome⟩ := effect.target
    rw [same.persisted] at isLast ⊢
    rcases outcome.lastVote vote isLast with ⟨before, sameEpoch⟩ | ⟨isNew, epoch⟩
    · obtain ⟨member, voteEpoch⟩ := valid.lastVote vote before
      exact ⟨by simp [member], voteEpoch.trans sameEpoch.symm⟩
    · exact ⟨by simp [isNew, Released.vote?], epoch⟩
  bounded := by
    have earlier : ∀ vote ∈ history.votes, vote.epoch < after.persisted.epoch ∨
          (vote.epoch = after.persisted.epoch ∧ vote.round ≤ after.persisted.lastVotedRound) := by
      intro vote member
      have bounded := valid.bounded vote member
      have forward := effect.progress.data
      unfold Forward at forward
      omega
    intro vote member
    rcases List.mem_append.mp member with isReturned | old
    · have isVote := Released.eq_vote_of_mem isReturned
      subst isVote
      rcases effect.returned valid with old | ⟨atTop, -⟩
      · exact earlier vote old
      · exact .inr atTop
    · exact earlier vote old
  unique := by
    have fresh : ∀ first ∈ output.vote?.toList, ∀ second ∈ history.votes,
          first.epoch = second.epoch → first.round = second.round → first = second := by
      intro first isReturned second old sameEpoch sameRound
      have isVote := Released.eq_vote_of_mem isReturned
      subst isVote
      rcases effect.returned valid with firstOld | ⟨-, above⟩
      · exact valid.unique first firstOld second old sameEpoch sameRound
      · have below := above second old sameEpoch.symm
        omega
    intro first firstMember second secondMember sameEpoch sameRound
    rcases List.mem_append.mp firstMember with firstNew | firstOld <;>
      rcases List.mem_append.mp secondMember with secondNew | secondOld
    · have firstIs := Released.eq_vote_of_mem firstNew
      have secondIs := Released.eq_vote_of_mem secondNew
      exact Released.vote.inj (firstIs.symm.trans secondIs)
    · exact fresh first firstNew second secondOld sameEpoch sameRound
    · exact (fresh second secondNew first firstOld sameEpoch.symm sameRound.symm).symm
    · exact valid.unique first firstOld second secondOld sameEpoch sameRound

theorem Valid.withAnswers (valid : Valid history) (answers : Answers) :
    Valid { history with rules := history.rules.withAnswers answers } :=
  { valid with }

/-- One event keeps the invariant. -/
theorem advance_valid (crypto : Crypto) (valid : Valid history) (event : Event) :
    Valid (advance crypto history event) := by
  cases event with
  | call call answers =>
    exact (valid.withAnswers answers).call
      (perform_effect crypto (valid.withAnswers answers).cacheAgrees call)
  | restart configuration =>
    refine ⟨?_, ?_, valid.lastVote, valid.bounded, valid.unique⟩
    · intro data cached
      cases cached
    · intro signer isSigner
      cases isSigner

theorem advance_progress (crypto : Crypto) (valid : Valid history) (event : Event) :
    Progress history.rules (advance crypto history event).rules := by
  cases event with
  | call call answers =>
    have progress := (perform_effect crypto (valid.withAnswers answers).cacheAgrees call).progress
    exact ⟨progress.data, progress.waypoint⟩
  | restart configuration => exact ⟨.refl _, le_rfl⟩

/-- A run keeps the invariant and is progress. -/
theorem run_valid (crypto : Crypto) (valid : Valid history) (events : List Event) :
    Valid (run crypto history events) ∧
      Progress history.rules (run crypto history events).rules := by
  induction events generalizing history with
  | nil => exact ⟨valid, .refl _⟩
  | cons event rest ih =>
    obtain ⟨validAfter, progress⟩ := ih (advance_valid crypto valid event)
    exact ⟨validAfter, (advance_progress crypto valid event).trans progress⟩

/-- A process over a backend that was just set up. -/
theorem started_valid {internalStore : SecureStorage} {author : AccountAddress}
    {consensusKey executionKey : PublicKey} {waypoint : Waypoint} {configuration : Configuration} :
    Valid (started internalStore author consensusKey executionKey waypoint configuration) where
  cacheAgrees := by
    rintro data ⟨⟩
    rfl
  signerHeld := by
    rintro signer ⟨⟩
  lastVote := by
    rintro vote ⟨⟩
  bounded := by
    rintro vote ⟨⟩
  unique := by
    rintro first ⟨⟩

def Call.votesOrTimesOut : Call → Bool
  | .initializeWith _ => false
  | .constructAndSignVote _ _ => true
  | .constructAndSignVoteTwoChain _ _ _ => true
  | .signTimeout _ => true
  | .signTimeoutWithQc _ _ => true
  | .signProposal _ => false

theorem TimeoutFailed.persisted (failed : TimeoutFailed before round after)
    (canSign : before.CanSign) : after.persisted = before.persisted := by
  rcases failed with same | ⟨cannotSign, -, -⟩
  · exact same.persisted
  · exact (cannotSign canSign).elim

/-- A failed vote or timeout leaves the safety data as it was. -/
theorem perform_error_persisted {call : Call} {failure : Abort}
    (agrees : before.persistentStorage.CacheAgrees) (canSign : before.CanSign)
    (path : call.votesOrTimesOut = true)
    (failed : (perform crypto call before).1 = .error failure) :
    (perform crypto call before).2.persisted = before.persisted := by
  have unchanged : (perform crypto call).Satisfies (Unchanged before) (fun _ _ => True)
        (fun _ after => after.persisted = before.persisted) := by
    cases call with
    | initializeWith proof => cases path
    | constructAndSignVote now proposal =>
      exact andThen guardedConstructAndSignVote_satisfies
        (fun _ _ same => same.persisted) fun _ => ret fun _ _ => trivial
    | constructAndSignVoteTwoChain now proposal timeoutCert =>
      exact andThen guardedConstructAndSignVoteTwoChain_satisfies
        (fun _ _ same => same.persisted) fun _ => ret fun _ _ => trivial
    | signTimeout timeout =>
      exact andThen guardedSignTimeout_satisfies
        (fun _ _ failed => failed.persisted canSign) fun _ => ret fun _ _ => trivial
    | signTimeoutWithQc timeout timeoutCert =>
      exact andThen guardedSignTimeoutWithQc_satisfies
        (fun _ _ failed => failed.persisted canSign) fun _ => ret fun _ _ => trivial
    | signProposal blockData => cases path
  exact (unchanged before (.refl agrees)).2 failure failed

/--
No run of the safety rules equivocates.  Two votes returned for a round of an epoch
are the same vote, what is persisted only moves forward, no vote lies above the last
voted round, and a vote or timeout that fails leaves the safety data as it was.  The
backend may fail any read, any write and, except in the last part, any use of a key.
-/
theorem run_neverEquivocates
    (crypto : Crypto)
    (internalStore : SecureStorage)
    (author : AccountAddress)
    (consensusKey executionKey : PublicKey)
    (waypoint : Waypoint)
    (configuration : Configuration)
    (events later : List Event) :
    let start := started internalStore author consensusKey executionKey waypoint configuration
    let middle := run crypto start events
    let final := run crypto middle later
    (∀ first ∈ final.votes, ∀ second ∈ final.votes, first.epoch = second.epoch →
      first.round = second.round → first = second) ∧
    Forward middle.rules.persisted final.rules.persisted ∧
    (∀ vote ∈ final.votes, vote.epoch = final.rules.persisted.epoch →
      vote.round ≤ final.rules.persisted.lastVotedRound) ∧
    middle.rules.persistentStorage.internalStore.waypoint.version ≤
      final.rules.persistentStorage.internalStore.waypoint.version ∧
    (∀ call faults failure, call.votesOrTimesOut = true → (perform crypto call
      (final.rules.withAnswers { faults, keyFaults := [] })).1 = .error failure →
      (advance crypto final
        (.call call { faults, keyFaults := [] })).rules.persisted = final.rules.persisted) := by
  intro start middle final
  have validMiddle : Valid middle := (run_valid crypto started_valid events).1
  obtain ⟨valid, progress⟩ := run_valid crypto validMiddle later
  refine ⟨valid.unique, progress.data, ?_, progress.waypoint, ?_⟩
  · intro vote member sameEpoch
    rcases valid.bounded vote member with earlier | ⟨-, bounded⟩
    · exact (earlier.ne sameEpoch).elim
    · exact bounded
  · intro call faults failure path failed
    exact perform_error_persisted valid.cacheAgrees ⟨rfl, valid.signerHeld⟩ path failed

end SafetyRules

end Diem
