import Diem.ConsensusAgreement

namespace Diem

open SafetyRules List

namespace Setting

/-!
# Agreement of the 2-chain protocol

Honest validators vote with `constructAndSignVoteTwoChain` and time out with
`signTimeoutWithQc`.  A block whose round does not follow that of its parent
needs a timeout certificate, and the certified round that the certificate reports is
not below the parent's round of any vote its honest signers have cast before.
-/

/-- The calls of the 2-chain protocol. -/
def twoChainCalls : Call → Prop
  | .initializeWith _ => True
  | .constructAndSignVoteTwoChain _ _ _ => True
  | .signTimeoutWithQc _ _ => True
  | .constructAndSignVote _ _ => False
  | .signTimeout _ => False
  | .signProposal _ => False

/-- The rule behind a vote of the 2-chain protocol. -/
structure TwoChainVote (setting : Setting) (log : SignatureLog) (block : Block)
    (info : LedgerInfo) : Prop where
  ledgerInfo : constructLedgerInfo2chain block info.consensusDataHash = .ok info
  safe : ∃ maybeTc, safeToVote block maybeTc = .ok () ∧
    ∀ tc, maybeTc = some tc → setting.SupportedTc log tc

def twoChain (setting : Setting) : setting.VotingProtocol where
  permits := twoChainCalls
  rule := setting.TwoChainVote
  compatible _ _ := True
  rule_mono := by
    rintro log later block info grows ⟨ledgerInfo, maybeTc, safe, supported⟩
    exact ⟨ledgerInfo, maybeTc, safe, fun tc isTc => (supported tc isTc).mono grows⟩
  rule_of_cast := by
    intro log rules proposal vote call permitted admissible known rule
    cases rule with
    | threeChain now cast preferred => exact permitted.elim
    | twoChain now timeoutCert cast verifiedTc safe =>
      have isHash := (constructLedgerInfo2chain_ok cast.ledgerInfo).1
      refine ⟨by rw [isHash]; exact cast.ledgerInfo, timeoutCert, safe, ?_⟩
      intro tc isTc
      obtain ⟨epochState, isKnown, verified⟩ := verifiedTc tc isTc
      obtain rfl := Option.some.inj (known.symm.trans isKnown)
      exact ⟨verified, admissible.2 tc isTc⟩
  compatible_of_cast := fun _ _ _ _ => trivial

/-- The timeouts of honest validators that are in the log. -/
def timeouts (setting : Setting) (log : SignatureLog) (author : AccountAddress)
    (round highest : Nat) : Prop :=
  author ∉ setting.faulty ∧
  ∃ timeout : TimeoutSigningRepr, (author, .timeoutSigningRepr timeout) ∈ log ∧
    timeout.round = round ∧
    timeout.hqcRound = highest

variable {setting : Setting} {log : SignatureLog}

/-- The honest signers of a timeout certificate knew of no higher certificate. -/
theorem SupportedTc.timedOut {tc : TwoChainTimeoutCertificate}
    (supported : setting.SupportedTc log tc) :
    ∃ members, setting.HonestQuorum members ∧ ∀ member ∈ members, ∃ highest,
      setting.timeouts log member tc.round highest ∧ highest ≤ tc.highestHqcRound := by
  obtain ⟨power, signed⟩ := TwoChainTimeoutCertificate.verify_ok supported.verified
  refine ⟨_, ⟨tc.signatures.keys, tc.signatures.keys_nodup, power, rfl⟩, ?_⟩
  rintro member ⟨isSigner, honest⟩
  obtain ⟨⟨qcRound, signature⟩, isEntry⟩ := OrderedMap.mem_keys_iff.mp isSigner
  obtain ⟨bounded, valid⟩ := signed member qcRound signature isEntry
  have logged := supported.authentic member qcRound signature isEntry honest valid
  exact ⟨qcRound, ⟨honest, _, logged, rfl, rfl⟩, bounded⟩

/-- A vote is for a block of the next round, or rests on a quorum of timeouts. -/
theorem TwoChainVote.justified {block : Block} {info : LedgerInfo}
    (vote : setting.TwoChainVote log block info)
    (increasing : block.quorumCert.certifiedBlock.round < block.round) :
    block.round = block.quorumCert.certifiedBlock.round + 1 ∨
    ∃ members timeoutRound, setting.HonestQuorum members ∧ block.round = timeoutRound + 1 ∧
      ∀ member ∈ members, ∃ highest, setting.timeouts log member timeoutRound highest ∧
        highest ≤ block.quorumCert.certifiedBlock.round := by
  obtain ⟨maybeTc, safe, supported⟩ := vote.safe
  rcases safeToVote_ok safe with
    follows | ⟨-, first⟩ | ⟨tc, isTc, followsTc, highest⟩
  · exact .inl follows
  · exact .inl (by omega)
  · obtain ⟨members, isQuorum, timedOut⟩ := (supported tc isTc).timedOut
    refine .inr ⟨members, tc.round, isQuorum, followsTc, ?_⟩
    intro member isMember
    obtain ⟨round, timeout, bounded⟩ := timedOut member isMember
    exact ⟨round, timeout, bounded.trans highest⟩

variable {infos : ValidatorInfos}
  {system : ConsensusSystem}

/-- The votes and timeouts in the log follow the rules of the 2-chain protocol. -/
theorem Invariant.twoChainRules (invariant : Invariant setting.twoChain system)
    (tolerable : setting.Tolerable infos) (collisionFree : setting.crypto.CollisionFree)
    (batchSound : setting.crypto.BatchSound) :
    (setting.votingSystem system.log).TwoChainRules (setting.timeouts system.log) where
  toRules := invariant.rules tolerable collisionFree batchSound
  commits := by
    intro author block parent committed vote positive
    obtain ⟨info, proposed, rfl, record, rule⟩ := invariant.record collisionFree vote
    rcases (constructLedgerInfo2chain_ok rule.ledgerInfo).2 with
      isEmpty | ⟨isParent, follows⟩
    · rw [isEmpty] at positive
      cases positive
    · rw [← record.parent, ← record.round] at follows
      exact ⟨isParent.trans record.parent.symm, follows⟩
  justified := by
    intro author block parent committed vote
    obtain ⟨info, proposed, -, record, rule⟩ := invariant.record collisionFree vote
    have justified := rule.justified record.increasing
    rw [← record.parent, ← record.round] at justified
    exact justified
  timeoutAfterVote := by
    rintro author block parent committed timeoutRound highest
      ⟨honest, info, logged, isHash, -⟩ ⟨-, timeout, timedOut, rfl, rfl⟩
      notAfter
    exact (invariant author honest).data.separated info _ timeout logged isHash timedOut notAfter

/--
Agreement of the 2-chain protocol.  The blocks that two ledger infos with verifying
signatures commit lie on one chain, for every order of calls and restarts at the
honest validators.
-/
theorem twoChain_agreement
    (setting : Setting)
    (infos : ValidatorInfos)
    (system : ConsensusSystem)
    (first second : LedgerInfoWithSignatures)
    (tolerable : setting.Tolerable infos)
    (collisionFree : setting.crypto.CollisionFree)
    (batchSound : setting.crypto.BatchSound)
    (reachable : setting.Reachable twoChainCalls system)
    (firstVerified : first.verifySignatures setting.crypto setting.epochState.verifier = .ok ())
    (secondVerified : second.verifySignatures setting.crypto setting.epochState.verifier = .ok ())
    (firstAuthentic : setting.Authentic system.log first)
    (secondAuthentic : setting.Authentic system.log second)
    (firstRound : 1 ≤ first.commitInfo.round)
    (secondRound : 1 ≤ second.commitInfo.round) :
    OnOneChain setting.crypto first.commitInfo second.commitInfo := by
  have invariant : Invariant setting.twoChain system := Reachable.invariant collisionFree reachable
  have rules := invariant.twoChainRules tolerable collisionFree batchSound
  have agreement := VotingSystem.Rules.agreement (fun _ => rules.settles)
    (invariant.committed tolerable batchSound firstVerified firstAuthentic)
    firstRound
    (invariant.committed tolerable batchSound secondVerified secondAuthentic)
    secondRound
  exact agreement.imp (invariant.descends collisionFree) (invariant.descends collisionFree)

/-- The certificates of consecutive rounds. -/
def crewTwoChain : Nat → QuorumCert :=
  crewChain constructLedgerInfo2chain

/-- Three of four validators enter the epoch and vote in some rounds. -/
def crewTwoChainSystem : Nat → ConsensusSystem :=
  crewSystem fun round => .constructAndSignVoteTwoChain 0 (crewProposal (crewTwoChain round)) none

theorem crewTwoChain_reachable : crew.Reachable twoChainCalls (crewTwoChainSystem 3) := by
  refine crew_reachable _ (fun _ => trivial) ?_
  rintro (_ | _ | _ | round) small
  · exact ⟨trivial, by rintro author signature ⟨⟩, nofun⟩
  · exact ⟨trivial, crewChain_authentic 0 rfl, nofun⟩
  · exact ⟨trivial, crewChain_authentic 0 rfl, nofun⟩
  · omega

/-- In three rounds three of four validators commit the blocks of the first two. -/
theorem twoChain_agreement_threeRounds :
    (crewTwoChain 2).commitInfo.round = 1 ∧
    (crewTwoChain 3).commitInfo.round = 2 ∧
    OnOneChain Crypto.symbolic (crewTwoChain 2).commitInfo (crewTwoChain 3).commitInfo := by
  refine ⟨rfl, rfl, ?_⟩
  exact twoChain_agreement crew fourInfos (crewTwoChainSystem 3) (crewTwoChain 2).ledgerInfo
    (crewTwoChain 3).ledgerInfo crew_tolerable Crypto.symbolic_collisionFree
    Crypto.symbolic_batchSound crewTwoChain_reachable rfl rfl (crewChain_authentic 3 rfl)
    (crewChain_authentic 0 rfl) (Nat.le_refl 1) (Nat.le_succ 1)

end Setting

end Diem
