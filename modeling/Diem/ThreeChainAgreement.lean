import Diem.ConsensusAgreement

namespace Diem

open SafetyRules List

namespace Setting

/-!
# Agreement of the 3-chain protocol

Honest validators vote with `constructAndSignVote`, time out with `signTimeout` and
propose with `signProposal`.  A vote that can commit a block raises the preferred round
to that of the block, and no later vote has a parent below the preferred round.  The
timeouts and proposals that a validator signs play no part in the argument: a timeout
only raises the last voted round, and a proposal persists nothing.
-/

/-- The calls of the 3-chain protocol. -/
def threeChainCalls : Call → Prop
  | .initializeWith _ => True
  | .constructAndSignVote _ _ => True
  | .signTimeout _ => True
  | .signProposal _ => True
  | .constructAndSignVoteTwoChain _ _ _ => False
  | .signTimeoutWithQc _ _ => False

/-- A vote can commit no block above the parent of its own parent. -/
theorem commitInfo_round_le {block : Block} {hash : HashValue} {info : LedgerInfo}
    (returned : constructLedgerInfo block hash = .ok info) :
    info.commitInfo.round ≤ block.quorumCert.parentBlock.round := by
  rcases (constructLedgerInfo_ok returned).2 with isEmpty | ⟨isParent, -⟩
  · rw [isEmpty]
    exact Nat.zero_le _
  · rw [isParent]

def threeChain (setting : Setting) : setting.VotingProtocol where
  permits := threeChainCalls
  rule _ block info := constructLedgerInfo block info.consensusDataHash = .ok info
  compatible info voteData := info.commitInfo.round ≤ voteData.parent.round
  rule_mono := fun _ rule => rule
  rule_of_cast := by
    intro log rules proposal vote call permitted admissible known rule
    cases rule with
    | threeChain now cast preferred =>
      rw [(constructLedgerInfo_ok cast.ledgerInfo).1]
      exact cast.ledgerInfo
    | twoChain now timeoutCert cast verifiedTc safe => exact permitted.elim
  compatible_of_cast := by
    intro log rules proposal vote call block info permitted earlier covers rule
    cases rule with
    | threeChain now cast preferred =>
      obtain ⟨executedStateId, version, shape⟩ := cast.verified.voteData
      calc
        info.commitInfo.round ≤ block.quorumCert.parentBlock.round := commitInfo_round_le earlier
        _ ≤ rules.persisted.preferredRound := covers.preferred
        _ ≤ proposal.voteProposal.block.quorumCert.certifiedBlock.round := preferred
        _ = vote.voteData.parent.round := by rw [shape]; rfl
    | twoChain now timeoutCert cast verifiedTc safe => exact permitted.elim

variable {setting : Setting} {system : ConsensusSystem}
  {infos : ValidatorInfos}

/-- The votes in the log follow the rules of the 3-chain protocol. -/
theorem Invariant.threeChainRules (invariant : Invariant setting.threeChain system)
    (tolerable : setting.Tolerable infos) (collisionFree : setting.crypto.CollisionFree)
    (batchSound : setting.crypto.BatchSound) :
    (setting.votingSystem system.log).ThreeChainRules where
  toRules := invariant.rules tolerable collisionFree batchSound
  commits := by
    intro author block parent committed vote positive
    obtain ⟨info, proposed, rfl, record, rule⟩ := invariant.record collisionFree vote
    rcases (constructLedgerInfo_ok rule).2 with
      isEmpty | ⟨isGrandparent, parentFollows, follows⟩
    · rw [isEmpty] at positive
      cases positive
    · have certified := record.supported.certified batchSound (by omega)
      rw [← isGrandparent, ← record.parent] at certified
      rw [← isGrandparent, ← record.parent] at parentFollows
      rw [← record.parent, ← record.round] at follows
      exact ⟨certified, parentFollows, follows⟩
  preferred := by
    rintro author block parent committed block' parent' committed'
      ⟨honest, info, logged, isHash, rfl⟩ ⟨-, info', logged', isHash', -⟩
      earlier
    exact (invariant author honest).data.compatible info info' _ _ logged
      logged' isHash isHash' earlier

/--
Agreement of the 3-chain protocol.  The blocks that two ledger infos with verifying
signatures commit lie on one chain, for every order of calls and restarts at the
honest validators.
-/
theorem threeChain_agreement
    (setting : Setting)
    (infos : ValidatorInfos)
    (system : ConsensusSystem)
    (first second : LedgerInfoWithSignatures)
    (tolerable : setting.Tolerable infos)
    (collisionFree : setting.crypto.CollisionFree)
    (batchSound : setting.crypto.BatchSound)
    (reachable : setting.Reachable threeChainCalls system)
    (firstVerified : first.verifySignatures setting.crypto setting.epochState.verifier = .ok ())
    (secondVerified : second.verifySignatures setting.crypto setting.epochState.verifier = .ok ())
    (firstAuthentic : setting.Authentic system.log first)
    (secondAuthentic : setting.Authentic system.log second)
    (firstRound : 1 ≤ first.commitInfo.round)
    (secondRound : 1 ≤ second.commitInfo.round) :
    OnOneChain setting.crypto first.commitInfo second.commitInfo := by
  have invariant : Invariant setting.threeChain system :=
    Reachable.invariant collisionFree reachable
  have rules := invariant.threeChainRules tolerable collisionFree batchSound
  have agreement := VotingSystem.Rules.agreement (fun _ => rules.settles)
    (invariant.committed tolerable batchSound firstVerified firstAuthentic)
    firstRound
    (invariant.committed tolerable batchSound secondVerified secondAuthentic)
    secondRound
  exact agreement.imp (invariant.descends collisionFree) (invariant.descends collisionFree)

/-- The certificates of consecutive rounds. -/
def crewThreeChain : Nat → QuorumCert :=
  crewChain constructLedgerInfo

/-- Three of four validators enter the epoch and vote in some rounds. -/
def crewThreeChainSystem : Nat → ConsensusSystem :=
  crewSystem fun round => .constructAndSignVote 0 (crewProposal (crewThreeChain round))

theorem crewThreeChain_reachable : crew.Reachable threeChainCalls (crewThreeChainSystem 4) := by
  refine crew_reachable _ (fun _ => trivial) ?_
  rintro (_ | _ | _ | _ | round) small
  · exact ⟨trivial, by rintro author signature ⟨⟩⟩
  · exact ⟨trivial, crewChain_authentic 0 rfl⟩
  · exact ⟨trivial, crewChain_authentic 0 rfl⟩
  · exact ⟨trivial, crewChain_authentic 0 rfl⟩
  · omega

/-- In four rounds three of four validators commit the blocks of the first two. -/
theorem threeChain_agreement_fourRounds :
    (crewThreeChain 3).commitInfo.round = 1 ∧
    (crewThreeChain 4).commitInfo.round = 2 ∧
    OnOneChain Crypto.symbolic (crewThreeChain 3).commitInfo (crewThreeChain 4).commitInfo := by
  refine ⟨rfl, rfl, ?_⟩
  exact threeChain_agreement crew fourInfos (crewThreeChainSystem 4) (crewThreeChain 3).ledgerInfo
    (crewThreeChain 4).ledgerInfo crew_tolerable Crypto.symbolic_collisionFree
    Crypto.symbolic_batchSound crewThreeChain_reachable rfl rfl (crewChain_authentic 3 rfl)
    (crewChain_authentic 0 rfl) (Nat.le_refl 1) (Nat.le_succ 1)

end Setting

end Diem
