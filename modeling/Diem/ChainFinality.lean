import Diem.TwoChainAgreement
import Diem.ThreeChainAgreement

namespace Diem.Setting

/-!
# Finality of certificates

Agreement compares commits.  Here a certificate is compared with any other one and with any
commit, whichever was made first.
-/

variable {setting : Setting}

/-- A round has one certified block, and it descends from the committed ones. -/
structure CertificatesFinal (setting : Setting) (log : SignatureLog) : Prop where
  unique : ∀ first second, setting.Supported log first → setting.Supported log second →
    0 < first.certifiedBlock.round → first.certifiedBlock.round = second.certifiedBlock.round →
    first.certifiedBlock = second.certifiedBlock ∧ first.parentBlock = second.parentBlock
  final : ∀ signed qc, setting.Authentic log signed → setting.Supported log qc →
    signed.verifySignatures setting.crypto setting.epochState.verifier = .ok () →
    0 < signed.commitInfo.round → signed.commitInfo.round ≤ qc.certifiedBlock.round →
    Relation.ReflTransGen (Extends setting.crypto) signed.commitInfo qc.certifiedBlock

section

variable {infos : ValidatorInfos} {system : ConsensusSystem}
  (tolerable : setting.Tolerable infos) (collisionFree : setting.crypto.CollisionFree)
  (batchSound : setting.crypto.BatchSound)
include tolerable collisionFree batchSound

theorem Invariant.certificatesFinal {protocol : setting.VotingProtocol}
    (invariant : Invariant protocol system)
    (settles : ∀ block, (setting.votingSystem system.log).Committed block →
      0 < block.round → (setting.votingSystem system.log).Settled block) :
    setting.CertificatesFinal system.log where
  unique first second supported supported' positive sameRound := by
    have certified := supported.certified batchSound positive
    have certified' := supported'.certified batchSound (sameRound ▸ positive)
    have rules := invariant.rules tolerable collisionFree batchSound
    exact rules.certified_unique certified certified' sameRound
  final signed qc authentic supported verified positive later := by
    have committed := invariant.committed tolerable batchSound verified authentic
    have certified := supported.certified batchSound (positive.trans_le later)
    exact invariant.descends collisionFree
      ((settles _ committed positive).descends _ _ certified later)

/--
Whatever the order of calls and restarts at the honest validators of either protocol: a
round has at most one certified block, with one parent, and every certificate of a round
not below that of a committed block certifies a descendant of it.
-/
theorem certificates_final
    (reachable :
      setting.Reachable twoChainCalls system ∨ setting.Reachable threeChainCalls system) :
    setting.CertificatesFinal system.log := by
  rcases reachable with reachable | reachable
  · have invariant : Invariant setting.twoChain system := reachable.invariant collisionFree
    have rules := invariant.twoChainRules tolerable collisionFree batchSound
    exact invariant.certificatesFinal tolerable collisionFree batchSound fun _ => rules.settles
  · have invariant : Invariant setting.threeChain system := reachable.invariant collisionFree
    have rules := invariant.threeChainRules tolerable collisionFree batchSound
    exact invariant.certificatesFinal tolerable collisionFree batchSound fun _ => rules.settles

end

/-- After three rounds the last certificate certifies a descendant of the block it commits. -/
theorem certificates_final_threeRounds :
    let log := (crewTwoChainSystem 3).log
    let last := crewTwoChain 3
    crew.CertificatesFinal log ∧ crew.Supported log last ∧
    last.commitInfo.round = 2 ∧ last.certifiedBlock.round = 3 ∧
    Relation.ReflTransGen (Extends .symbolic) last.commitInfo last.certifiedBlock := by
  intro log last
  have final := certificates_final crew_tolerable Crypto.symbolic_collisionFree
    Crypto.symbolic_batchSound (.inl crewTwoChain_reachable)
  have supported : crew.Supported log last := ⟨rfl, crewChain_authentic 0 rfl⟩
  exact ⟨final, supported, rfl, rfl,
    final.final last.ledgerInfo last supported.authentic supported rfl (by decide) (by decide)⟩

end Diem.Setting
