import Diem.ConsensusSystem

namespace Diem

open SafetyRules List

namespace Setting

/-!
# What the log says about a validator

The safety data of a validator bounds everything it has released in the epoch.  The
invariant is stated for any protocol that is given by the calls it permits, the rule
under which a vote is cast, and what earlier votes imply for a later one.
-/

/-- A voting protocol, given by its calls and what they guarantee. -/
structure VotingProtocol (setting : Setting) where
  permits : Call → Prop
  rule : SignatureLog → Block → LedgerInfo → Prop
  compatible : LedgerInfo → VoteData → Prop
  rule_mono : ∀ {log later block info}, log ⊆ later → rule log block info → rule later block info
  rule_of_cast : ∀ {log rules proposal vote call}, permits call → setting.Admissible log call →
    rules.epochState = some setting.epochState →
    VotingRule setting.crypto rules proposal vote call →
      rule log proposal.voteProposal.block vote.ledgerInfo
  compatible_of_cast :
    ∀ {log rules proposal vote call block info}, permits call → rule log block info →
      Covers rules.persisted block →
      VotingRule setting.crypto rules proposal vote call → compatible info vote.voteData

/-- What the safety data of a validator says about its part of the log. -/
structure DataInvariant {setting : Setting} (protocol : setting.VotingProtocol) (log : SignatureLog)
    (author : AccountAddress)
    (data : SafetyData) : Prop where
  lastVote : data.epoch = setting.epochState.epoch →
    ∀ vote, data.lastVote = some vote → (author, .ledgerInfo vote.ledgerInfo) ∈ log
  votes : ∀ info, (author, .ledgerInfo info) ∈ log → data.epoch = setting.epochState.epoch ∧
    ∃ voteData block, setting.VoteRecord log info voteData block ∧ protocol.rule log block info ∧
      Covers data block
  timeouts : ∀ timeout,
    (author, .timeoutSigningRepr timeout) ∈ log → data.epoch = setting.epochState.epoch ∧
      timeout.epoch = setting.epochState.epoch ∧
      timeout.round ≤ data.lastVotedRound
  unique : ∀ first second firstData secondData, (author, .ledgerInfo first) ∈ log →
    (author, .ledgerInfo second) ∈ log →
    first.consensusDataHash = setting.crypto.hashVoteData firstData →
    second.consensusDataHash = setting.crypto.hashVoteData secondData →
    firstData.proposed.round = secondData.proposed.round → firstData = secondData
  separated : ∀ info voteData timeout, (author, .ledgerInfo info) ∈ log →
    info.consensusDataHash = setting.crypto.hashVoteData voteData →
    (author, .timeoutSigningRepr timeout) ∈ log →
    voteData.proposed.round ≤ timeout.round → voteData.parent.round ≤ timeout.hqcRound
  compatible : ∀ first second firstData secondData, (author, .ledgerInfo first) ∈ log →
    (author, .ledgerInfo second) ∈ log →
    first.consensusDataHash = setting.crypto.hashVoteData firstData →
    second.consensusDataHash = setting.crypto.hashVoteData secondData →
    firstData.proposed.round < secondData.proposed.round → protocol.compatible first secondData

/-- The invariant of an honest validator. -/
structure ReplicaInvariant {setting : Setting} (protocol : setting.VotingProtocol)
    (log : SignatureLog) (author : AccountAddress)
    (rules : SafetyRules) : Prop where
  cacheAgrees : rules.persistentStorage.CacheAgrees
  inEpoch : ∀ epochState, rules.epochState = some epochState →
    epochState = setting.epochState ∧ rules.persisted.epoch = setting.epochState.epoch
  data : DataInvariant protocol log author rules.persisted

variable {setting : Setting} {protocol : setting.VotingProtocol}
  {log later : SignatureLog} {author : AccountAddress} {data : SafetyData}
  (collisionFree : setting.crypto.CollisionFree)

section

variable (invariant : DataInvariant protocol log author data)
include invariant

/-- Safety data can move on, others can sign, and timeouts above the votes are safe. -/
theorem DataInvariant.mono {data' : SafetyData} (grows : log ⊆ later)
    (sameVotes : ∀ info, (author, .ledgerInfo info) ∈ later → (author, .ledgerInfo info) ∈ log)
    (timeouts : ∀ timeout, (author, .timeoutSigningRepr timeout) ∈ later →
      (author, .timeoutSigningRepr timeout) ∈ log ∨ data'.epoch = setting.epochState.epoch ∧
        timeout.epoch = setting.epochState.epoch ∧
        timeout.round ≤ data'.lastVotedRound ∧
        ∀ info voteData, (author, .ledgerInfo info) ∈ log →
          info.consensusDataHash = setting.crypto.hashVoteData voteData →
            voteData.parent.round ≤ timeout.hqcRound)
    (movedOn : MovedOn data data')
    (sameLast : data'.lastVote = data.lastVote) :
    DataInvariant protocol later author data' where
  lastVote := by
    intro inEpoch vote isLast
    rw [movedOn.epoch] at inEpoch
    rw [sameLast] at isLast
    exact grows (invariant.lastVote inEpoch vote isLast)
  votes := by
    intro info member
    obtain ⟨inEpoch, voteData, block, record, rule, covers⟩ :=
      invariant.votes info (sameVotes info member)
    exact ⟨movedOn.epoch.trans inEpoch, voteData, block, record.mono grows,
      protocol.rule_mono grows rule, covers.mono movedOn⟩
  timeouts := by
    intro timeout member
    rcases timeouts timeout member with old | ⟨inEpoch, epoch, bounded, -⟩
    · obtain ⟨inEpoch, epoch, bounded⟩ := invariant.timeouts timeout old
      exact ⟨movedOn.epoch.trans inEpoch, epoch, bounded.trans movedOn.lastVoted⟩
    · exact ⟨inEpoch, epoch, bounded⟩
  unique := fun first second _ _ firstLogged secondLogged =>
    invariant.unique first second _ _ (sameVotes first firstLogged) (sameVotes second secondLogged)
  separated := by
    intro info voteData timeout logged isHash timedOut notAfter
    rcases timeouts timeout timedOut with old | ⟨-, -, -, above⟩
    · exact invariant.separated _ _ _ (sameVotes info logged) isHash old notAfter
    · exact above info voteData (sameVotes info logged) isHash
  compatible := fun first second _ _ firstLogged secondLogged =>
    invariant.compatible first second _ _ (sameVotes first firstLogged)
      (sameVotes second secondLogged)

/-- A validator that enters the epoch has released nothing in it. -/
theorem DataInvariant.enter (outside : data.epoch ≠ setting.epochState.epoch) :
    DataInvariant protocol log author (freshSafetyData setting.epochState.epoch) where
  lastVote := by
    rintro - vote ⟨⟩
  votes := fun info member => (outside (invariant.votes info member).1).elim
  timeouts := fun timeout member => (outside (invariant.timeouts timeout member).1).elim
  unique := fun first _ _ _ member => (outside (invariant.votes first member).1).elim
  separated := fun info _ _ member => (outside (invariant.votes info member).1).elim
  compatible := fun first _ _ _ member => (outside (invariant.votes first member).1).elim

include collisionFree

/-- The safety data bounds the rounds of every logged vote and of its parent. -/
theorem DataInvariant.bounds {info : LedgerInfo} {voteData : VoteData}
    (logged : (author, .ledgerInfo info) ∈ log)
    (isHash : info.consensusDataHash = setting.crypto.hashVoteData voteData) :
    voteData.proposed.round ≤ data.lastVotedRound ∧ voteData.parent.round ≤ data.oneChainRound := by
  obtain ⟨-, recorded, block, record, -, covers⟩ := invariant.votes info logged
  have sameData : voteData = recorded := collisionFree (isHash.symm.trans record.hash)
  subst recorded
  rw [record.round, record.parent]
  exact ⟨covers.lastVoted, covers.oneChain⟩

end

variable {rules : SafetyRules} {proposal : MaybeSignedVoteProposal}

section

variable {vote : Vote} {call : Call}
  (rule : VotingRule setting.crypto rules proposal vote call)
include rule

/-- The ledger info of a new vote carries the hash of the vote data. -/
theorem consensusDataHash_of_cast :
    vote.ledgerInfo.consensusDataHash = setting.crypto.hashVoteData vote.voteData := by
  cases rule with
  | threeChain now cast preferred => exact (constructLedgerInfo_ok cast.ledgerInfo).1
  | twoChain now timeoutCert cast verifiedTc safe =>
    exact (constructLedgerInfo2chain_ok cast.ledgerInfo).1

/-- The certificate that a new vote rests on is not forged. -/
theorem authentic_of_cast (admissible : setting.Admissible log call) :
    setting.Authentic log proposal.voteProposal.block.quorumCert.ledgerInfo := by
  cases rule with
  | threeChain now cast preferred => exact admissible
  | twoChain now timeoutCert cast verifiedTc safe => exact admissible.1

theorem VoteRecord.of_cast (known : rules.epochState = some setting.epochState)
    (admissible : setting.Admissible log call) :
    setting.VoteRecord log vote.ledgerInfo vote.voteData
      proposal.voteProposal.block := by
  obtain ⟨verified, -⟩ := rule.verified
  obtain ⟨executedStateId, version, shape⟩ := verified.voteData
  obtain ⟨epochState, isKnown, certificate⟩ := verified.certificate
  have sameEpochState : setting.epochState = epochState :=
    Option.some.inj (known.symm.trans isKnown)
  subst epochState
  exact
    { hash := consensusDataHash_of_cast rule
      id := by rw [shape]; rfl
      round := by rw [shape]; rfl
      parent := by rw [shape]; rfl
      increasing := verified.increasing
      supported := ⟨certificate, authentic_of_cast rule admissible⟩ }

end

theorem vote_logged_cases {info found : LedgerInfo}
    (logged : (author, .ledgerInfo found) ∈ (author, .ledgerInfo info) :: log) :
    found = info ∨ (author, .ledgerInfo found) ∈ log := by
  simpa using logged

section

include collisionFree

/-- Casting a vote keeps the invariant. -/
theorem DataInvariant.vote {vote : Vote} {call : Call}
    (invariant : DataInvariant protocol log author rules.persisted)
    (inEpoch : rules.persisted.epoch = setting.epochState.epoch)
    (known : rules.epochState = some setting.epochState) (permitted : protocol.permits call)
    (admissible : setting.Admissible log call)
    (rule : VotingRule setting.crypto rules proposal vote call) :
    DataInvariant protocol ((author, .ledgerInfo vote.ledgerInfo) :: log) author
      (votedData rules.persisted proposal.voteProposal.block vote) := by
  have grows : log ⊆ (author, .ledgerInfo vote.ledgerInfo) :: log := subset_cons_self _ _
  have record := VoteRecord.of_cast rule known admissible
  have newer := rule.verified.2
  -- a vote is the new one, or was logged before for a lower round
  have newest :
      ∀ {info voteData}, (author, .ledgerInfo info) ∈ (author, .ledgerInfo vote.ledgerInfo) :: log →
        info.consensusDataHash = setting.crypto.hashVoteData voteData →
          info = vote.ledgerInfo ∧ voteData = vote.voteData ∨
            (author, .ledgerInfo info) ∈ log ∧
              voteData.proposed.round < vote.voteData.proposed.round := by
    intro info voteData logged isHash
    rcases vote_logged_cases logged with rfl | old
    · exact .inl ⟨rfl, collisionFree (isHash.symm.trans record.hash)⟩
    · have bounded := (invariant.bounds collisionFree old isHash).1
      rw [record.round]
      exact .inr ⟨old, by omega⟩
  have movedOn :
      MovedOn rules.persisted (votedData rules.persisted proposal.voteProposal.block vote) :=
    ⟨rfl, newer.le, le_max_left _ _, le_max_left _ _⟩
  constructor
  case lastVote =>
    rintro - found ⟨⟩
    exact mem_cons_self
  case votes =>
    intro info logged
    refine ⟨inEpoch, ?_⟩
    rcases vote_logged_cases logged with rfl | old
    · exact ⟨_, _, record.mono grows,
        protocol.rule_mono grows (protocol.rule_of_cast permitted admissible known rule),
        le_rfl, le_max_right _ _, le_max_right _ _⟩
    · obtain ⟨-, voteData, block, oldRecord, oldRule, covers⟩ := invariant.votes info old
      exact ⟨voteData, block, oldRecord.mono grows,
        protocol.rule_mono grows oldRule, covers.mono movedOn⟩
  case timeouts =>
    intro timeout logged
    obtain ⟨-, epoch, bounded⟩ := invariant.timeouts timeout (by simpa using logged)
    exact ⟨inEpoch, epoch, bounded.trans movedOn.lastVoted⟩
  case unique =>
    intro first second firstData secondData firstLogged secondLogged firstHash secondHash sameRound
    rcases newest firstLogged firstHash with ⟨rfl, rfl⟩ | ⟨firstOld, firstBelow⟩ <;>
      rcases newest secondLogged secondHash with ⟨rfl, rfl⟩ | ⟨secondOld, secondBelow⟩
    · rfl
    · omega
    · omega
    · exact invariant.unique _ _ _ _ firstOld secondOld firstHash secondHash sameRound
  case separated =>
    intro info voteData timeout logged isHash timedOut notAfter
    have oldTimeout : (author, .timeoutSigningRepr timeout) ∈ log := by simpa using timedOut
    rcases newest logged isHash with ⟨rfl, rfl⟩ | ⟨old, -⟩
    · obtain ⟨-, -, bounded⟩ := invariant.timeouts timeout oldTimeout
      rw [record.round] at notAfter
      omega
    · exact invariant.separated _ _ _ old isHash oldTimeout notAfter
  case compatible =>
    intro first second firstData secondData firstLogged secondLogged firstHash secondHash earlier
    rcases newest firstLogged firstHash with ⟨rfl, rfl⟩ | ⟨firstOld, firstBelow⟩ <;>
      rcases newest secondLogged secondHash with ⟨rfl, rfl⟩ | ⟨secondOld, secondBelow⟩
    · omega
    · omega
    · obtain ⟨-, -, block, -, oldRule, covers⟩ := invariant.votes first firstOld
      exact protocol.compatible_of_cast permitted oldRule covers rule
    · exact invariant.compatible _ _ _ _ firstOld secondOld firstHash secondHash earlier

theorem DataInvariant.timeout {timeout : TwoChainTimeout}
    {timeoutCert : Option TwoChainTimeoutCertificate}
    (invariant : DataInvariant protocol log author rules.persisted)
    (inEpoch : rules.persisted.epoch = setting.epochState.epoch)
    (signed : SignedTimeout setting.crypto rules timeout timeoutCert) :
    DataInvariant protocol ((author, .timeoutSigningRepr timeout.signingFormat) :: log) author
      (timedOutData rules.persisted timeout.round) := by
  refine invariant.mono (subset_cons_self _ _) (fun info logged => by simpa using logged) ?_
    ⟨rfl, signed.later, le_rfl, le_rfl⟩ rfl
  intro found logged
  rcases mem_cons.mp logged with isNew | old
  · cases isNew
    refine .inr ⟨inEpoch, signed.epoch.trans inEpoch, le_rfl, ?_⟩
    intro info voteData logged isHash
    exact (invariant.bounds collisionFree logged isHash).2.trans signed.safe
  · exact .inl old

end

/-- Releasing nothing that counts keeps the part of the log about a validator. -/
theorem DataInvariant.moveOn {data' : SafetyData}
    (invariant : DataInvariant protocol log author data) (messages : List Message)
    (noVote : ∀ info, .ledgerInfo info ∉ messages)
    (noTimeout : ∀ timeout, .timeoutSigningRepr timeout ∉ messages) (movedOn : MovedOn data data')
    (sameLast : data'.lastVote = data.lastVote) :
    DataInvariant protocol (messages.map (.mk author) ++ log) author data' := by
  refine invariant.mono (subset_append_right _ _) ?_ ?_ movedOn sameLast
  · intro info logged
    simpa [noVote] using logged
  · intro timeout logged
    exact .inl (by simpa [noTimeout] using logged)

theorem MovedOn.refl (data : SafetyData) : MovedOn data data := ⟨rfl, le_rfl, le_rfl, le_rfl⟩

/-- A validator that knows the validators of an epoch is in the epoch of the setting. -/
theorem ReplicaInvariant.entered (invariant : ReplicaInvariant protocol log author rules)
    (isSome : rules.epochState.isSome) :
    rules.epochState = some setting.epochState ∧
      rules.persisted.epoch = setting.epochState.epoch := by
  obtain ⟨epochState, known⟩ := Option.isSome_iff_exists.mp isSome
  obtain ⟨rfl, inEpoch⟩ := invariant.inEpoch epochState known
  exact ⟨known, inEpoch⟩

variable {after : SafetyRules}

section

variable (invariant : ReplicaInvariant protocol log author rules)
include invariant

/-- A call that stays in the epoch keeps the invariant if it does so for the data. -/
theorem ReplicaInvariant.stay {target : SafetyRules} (same : Unchanged target after)
    (sameEpochState : target.epochState = rules.epochState)
    (sameEpoch : target.persisted.epoch = rules.persisted.epoch)
    (data : DataInvariant protocol later author target.persisted) :
    ReplicaInvariant protocol later author after where
  cacheAgrees := same.storage.cacheAgrees
  inEpoch := by
    intro epochState known
    rw [same.epochState, sameEpochState] at known
    rw [same.persisted, sameEpoch]
    exact invariant.inEpoch epochState known
  data := by
    rw [same.persisted]
    exact data

theorem ReplicaInvariant.move {proof : EpochChangeProof}
    (admissible : setting.Admissible log (.initializeWith proof))
    (moved : Moved rules proof after) : ReplicaInvariant protocol log author after := by
  obtain ⟨target, move, same⟩ := moved
  rcases move.epoch with
    ⟨samePersisted, sameEpochState⟩ | ⟨epochState, leads, known, notLater, data⟩
  · exact invariant.stay same sameEpochState (by rw [samePersisted])
      (by rw [samePersisted]; exact invariant.data)
  · obtain rfl := admissible epochState leads
    have entered : target.persisted.epoch = setting.epochState.epoch ∧
          DataInvariant protocol log author target.persisted := by
      rw [data, epochData]
      split
      · rename_i newer
        exact ⟨rfl, invariant.data.enter newer.ne⟩
      · rename_i notNewer
        exact ⟨by omega, invariant.data⟩
    refine ⟨same.storage.cacheAgrees, ?_, ?_⟩
    · intro epochState isKnown
      rw [same.epochState, known] at isKnown
      rw [same.persisted]
      exact ⟨(Option.some.inj isKnown).symm, entered.1⟩
    · rw [same.persisted]
      exact entered.2

include collisionFree

/-- One call keeps the invariant of the validator it is made at. -/
theorem ReplicaInvariant.call {call : Call} {output : Released}
    (permitted : protocol.permits call) (admissible : setting.Admissible log call)
    (effect : SafetyRules.Effect setting.crypto rules after call output) :
    ReplicaInvariant protocol (output.messages.map (.mk author) ++ log)
      author after := by
  have timedOut : ∀ round, rules.persisted.lastVotedRound ≤ round →
    MovedOn rules.persisted (timedOutData rules.persisted round) :=
    fun round notEarlier => ⟨rfl, notEarlier, le_rfl, le_rfl⟩
  cases effect with
  | quiet _ same => exact invariant.stay same rfl rfl invariant.data
  | proposed blockData same =>
    exact invariant.stay same rfl rfl
      (invariant.data.moveOn [.blockData blockData] (by simp) (by simp) (MovedOn.refl _) rfl)
  | moved proof moved => exact invariant.move admissible moved
  | again _ vote last entered same =>
    have logged := invariant.data.lastVote (invariant.entered entered).2 vote last
    refine invariant.stay same rfl rfl
      (invariant.data.mono (subset_append_right _ _) ?_ ?_ (.refl _) rfl)
    · intro info found
      rcases vote_logged_cases found with rfl | old
      · exact logged
      · exact old
    · intro timeout found
      exact .inl (by simpa [Released.messages] using found)
  | cast _ proposal vote rule written =>
    obtain ⟨known, inEpoch⟩ := invariant.entered rule.verified.1.entered
    exact invariant.stay written rfl rfl
      (invariant.data.vote collisionFree inEpoch known permitted admissible rule)
  | unreleased _ round notEarlier written =>
    exact invariant.stay written rfl rfl
      (invariant.data.moveOn [] (by simp) (by simp) (timedOut round notEarlier) rfl)
  | timedOut timeout notEarlier written =>
    exact invariant.stay written rfl rfl
      (invariant.data.moveOn [.timeout timeout] (by simp) (by simp)
        (timedOut timeout.round notEarlier) rfl)
  | timedOutWithQc timeout timeoutCert signed written =>
    obtain ⟨-, inEpoch⟩ := invariant.entered signed.entered
    exact invariant.stay written rfl rfl (invariant.data.timeout collisionFree inEpoch signed)

/-- One event keeps the invariant of the validator it happens at. -/
theorem ReplicaInvariant.react {event : Event}
    (allowed : setting.Allowed protocol.permits log event) :
    ReplicaInvariant protocol ((rules.react setting.crypto event).2.map (.mk author) ++ log)
      author (rules.react setting.crypto event).1 := by
  cases event with
  | call call answers =>
    have answered : ReplicaInvariant protocol log author (rules.withAnswers answers) :=
      { invariant with }
    exact answered.call collisionFree allowed.1 allowed.2
      (perform_effect setting.crypto answered.cacheAgrees call)
  | restart configuration =>
    exact
      { cacheAgrees := by rintro data ⟨⟩
        inEpoch := by rintro epochState ⟨⟩
        data := invariant.data }

end

def Invariant {setting : Setting} (protocol : setting.VotingProtocol)
    (system : ConsensusSystem) : Prop :=
  ∀ author ∉ setting.faulty, ReplicaInvariant protocol system.log author (system.replicas author)

variable {system : ConsensusSystem}
include collisionFree

/-- One event keeps the invariant of all validators. -/
theorem Invariant.advance {event : Event} (invariant : Invariant protocol system)
    (honest : author ∉ setting.faulty)
    (allowed : setting.Allowed protocol.permits system.log event) :
    Invariant protocol (system.advance setting.crypto author event) := by
  intro other otherHonest
  by_cases isSame : other = author
  · subst isSame
    simpa [ConsensusSystem.advance] using (invariant other honest).react collisionFree allowed
  · have unchanged := invariant other otherHonest
    have notOthers : ∀ message,
          (other, message) ∈ (system.advance setting.crypto author event).log →
            (other, message) ∈ system.log := by
      intro message logged
      simpa [ConsensusSystem.advance, Ne.symm isSame] using logged
    have sameRules : (system.advance setting.crypto author event).replicas other =
          system.replicas other := by
      simp [ConsensusSystem.advance, Function.update_of_ne isSame]
    rw [sameRules]
    exact
      { cacheAgrees := unchanged.cacheAgrees
        inEpoch := unchanged.inEpoch
        data :=
          unchanged.data.mono (subset_append_right _ _) (fun info => notOthers (.ledgerInfo info))
            (fun _ logged => .inl (notOthers _ logged))
            (.refl _) rfl }

/-- Every reachable system satisfies the invariant. -/
theorem Reachable.invariant (reachable : setting.Reachable protocol.permits system) :
    Invariant protocol system := by
  induction reachable with
  | start replicas fresh =>
    intro author honest
    have freshRules := fresh author honest
    constructor
    case cacheAgrees => exact freshRules.cacheAgrees
    case inEpoch => simp [freshRules.notEntered]
    case data =>
      constructor
      case lastVote =>
        intro inEpoch vote isLast
        rw [freshRules.nothingSigned inEpoch] at isLast
        cases isLast
      all_goals simp
  | step system author event reachable honest allowed ih =>
    exact ih.advance collisionFree honest allowed

end Setting

end Diem
