import Diem.ChainAgreement
import Diem.ConsensusInvariant
import Diem.QuorumIntersection
import Diem.SymbolicCrypto

namespace Diem

open SafetyRules ValidatorVerifier

namespace Setting

/-!
# The log as a voting system

The ledger infos in the log are the votes of a chained voting system: the hash in a
ledger info names the block and its parent, and the commit info names the block that
is committed.  The rules that all chained protocols share follow from the invariant
of the validators and from the intersection of quorums.
-/

/-- The faulty validators have less than a third of the voting power. -/
structure Tolerable (setting : Setting)
    (infos : ValidatorInfos) : Prop where
  built : ValidatorVerifier.new infos = some setting.epochState.verifier
  noOverflow : 2 * totalPowerOf infos < 2 ^ 64
  fewFaulty : 3 * groupPowerOf infos (infos.keys.filter fun author => author ∈ setting.faulty) <
    totalPowerOf infos

/-- Signers that together are a quorum, without the faulty ones. -/
def HonestQuorum (setting : Setting) (members : Set AccountAddress) : Prop :=
  ∃ signers : List AccountAddress, signers.Nodup ∧
    setting.epochState.verifier.checkVotingPower signers = .ok () ∧
    members = { author | author ∈ signers ∧ author ∉ setting.faulty }

/-- The votes of honest validators that are in the log. -/
def votingSystem (setting : Setting) (log : SignatureLog) :
    VotingSystem AccountAddress BlockInfo where
  round := BlockInfo.round
  votes author block parent committed := author ∉ setting.faulty ∧
    ∃ info : LedgerInfo, (author, .ledgerInfo info) ∈ log ∧
      info.consensusDataHash = setting.crypto.hashVoteData { proposed := block, parent } ∧
      info.commitInfo = committed
  quorum := setting.HonestQuorum

/-- A block whose certificate names the parent. -/
def Extends (crypto : Crypto) (parent block : BlockInfo) : Prop :=
  ∃ proposed : Block, proposed.id crypto = block.id ∧ proposed.round = block.round ∧
    proposed.quorumCert.certifiedBlock = parent

/-- One of two blocks is an ancestor of the other, or they are equal. -/
def OnOneChain (crypto : Crypto) (first second : BlockInfo) : Prop :=
  Relation.ReflTransGen (Extends crypto) first second ∨
  Relation.ReflTransGen (Extends crypto) second first

variable {setting : Setting} {log : SignatureLog}
  {infos : ValidatorInfos}

/-- Validators with voting power exist. -/
theorem Tolerable.nonempty (tolerable : setting.Tolerable infos) : infos.isEmpty = false := by
  by_contra isEmpty
  have noEntries : infos.entries = [] := by simpa [OrderedMap.isEmpty] using isEmpty
  have noPower : totalPowerOf infos = 0 := by simp [totalPowerOf, OrderedMap.values, noEntries]
  have fewFaulty := tolerable.fewFaulty
  omega

/-- Two quorums share an honest validator. -/
theorem Tolerable.intersect (tolerable : setting.Tolerable infos)
    (first second : Set AccountAddress) (isQuorum : setting.HonestQuorum first)
    (isQuorum' : setting.HonestQuorum second) : ∃ member, member ∈ first ∧ member ∈ second := by
  obtain ⟨signers, nodup, passes, rfl⟩ := isQuorum
  obtain ⟨signers', nodup', passes', rfl⟩ := isQuorum'
  have small : totalPowerOf infos < 2 ^ 63 := by
    have noOverflow := tolerable.noOverflow
    omega
  have shared :=
    quorums_share_of_small tolerable.nonempty tolerable.built small nodup nodup' passes passes'
  have heavier : groupPowerOf infos (infos.keys.filter fun author => author ∈ setting.faulty) <
        groupPowerOf infos (signers.filter fun author => author ∈ signers') := by
    have fewFaulty := tolerable.fewFaulty
    omega
  unfold groupPowerOf at heavier
  rw [WeightedQuorum.sum_map_eq_groupWeight _ (infos.keys_nodup.filter _),
    WeightedQuorum.sum_map_eq_groupWeight _ (nodup.filter _)] at heavier
  obtain ⟨member, isShared, notFaulty⟩ := WeightedQuorum.exists_mem_not_mem _ heavier
  simp only [List.mem_toFinset, List.mem_filter, decide_eq_true_eq] at isShared notFaulty
  have known : member ∈ infos.keys :=
    ((checkVotingPower_built_iff tolerable.built nodup).mp passes).1 member isShared.1
  have honest : member ∉ setting.faulty := fun isFaulty => notFaulty ⟨known, isFaulty⟩
  exact ⟨member, ⟨isShared.1, honest⟩, ⟨isShared.2, honest⟩⟩

variable {signed : LedgerInfoWithSignatures}

/-- The honest signers of a ledger info that verifies have released it. -/
theorem exists_honestQuorum (batchSound : setting.crypto.BatchSound)
    (verified : signed.verifySignatures setting.crypto setting.epochState.verifier = .ok ())
    (authentic : setting.Authentic log signed) :
    ∃ members, setting.HonestQuorum members ∧ ∀ member ∈ members,
      member ∉ setting.faulty ∧ (member, .ledgerInfo signed.ledgerInfo) ∈ log := by
  obtain ⟨power, allSigned⟩ := batchVerifyAggregatedSignatures_ok batchSound verified
  refine ⟨_, ⟨signed.signatures.keys, signed.signatures.keys_nodup, power, rfl⟩, ?_⟩
  rintro member ⟨isSigner, honest⟩
  obtain ⟨signature, isEntry⟩ := OrderedMap.mem_keys_iff.mp isSigner
  exact ⟨honest, authentic member signature isEntry honest (allSigned member signature isEntry)⟩

/-- A supported certificate certifies its block, unless it stands for genesis. -/
theorem Supported.certified {qc : QuorumCert} (supported : setting.Supported log qc)
    (batchSound : setting.crypto.BatchSound) (positive : 0 < qc.certifiedBlock.round) :
    (setting.votingSystem log).Certified qc.certifiedBlock qc.parentBlock := by
  obtain ⟨isHash, notGenesis⟩ := QuorumCert.verify_ok supported.verified
  obtain ⟨members, isQuorum, released⟩ :=
    exists_honestQuorum batchSound (notGenesis (by omega)).1 supported.authentic
  refine ⟨members, isQuorum, ?_⟩
  intro member isMember
  obtain ⟨honest, logged⟩ := released member isMember
  exact ⟨_, honest, _, logged, isHash, rfl⟩

variable {protocol : setting.VotingProtocol} {system : ConsensusSystem}

section

variable (invariant : Invariant protocol system)
include invariant

/-- The record behind a vote in the log. -/
theorem Invariant.record (collisionFree : setting.crypto.CollisionFree) {author : AccountAddress}
    {block parent committed : BlockInfo}
    (vote : (setting.votingSystem system.log).votes author block parent committed) :
    ∃ info proposed, info.commitInfo = committed ∧
      setting.VoteRecord system.log info { proposed := block, parent } proposed ∧
      protocol.rule system.log proposed info := by
  obtain ⟨honest, info, logged, isHash, commits⟩ := vote
  obtain ⟨-, recorded, proposed, record, rule, -⟩ :=
    (invariant author honest).data.votes info logged
  have sameData : recorded = { proposed := block, parent } :=
    collisionFree (record.hash.symm.trans isHash)
  subst recorded
  exact ⟨info, proposed, commits, record, rule⟩

/-- The votes in the log follow the rules that chained protocols share. -/
theorem Invariant.rules (tolerable : setting.Tolerable infos)
    (collisionFree : setting.crypto.CollisionFree) (batchSound : setting.crypto.BatchSound) :
    (setting.votingSystem system.log).Rules where
  intersect := tolerable.intersect
  increasing := by
    intro author block parent committed vote
    obtain ⟨info, proposed, -, record, -⟩ := invariant.record collisionFree vote
    have increasing := record.increasing
    rw [← record.parent, ← record.round] at increasing
    exact increasing
  oncePerRound := by
    rintro author block parent committed block' parent' committed'
      ⟨honest, info, logged, isHash, -⟩ ⟨-, info', logged', isHash', -⟩
      sameRound
    have sameData :=
      (invariant author honest).data.unique info info' _ _ logged logged' isHash isHash' sameRound
    exact VoteData.mk.inj sameData
  parentCertified := by
    intro author block parent committed vote positive
    obtain ⟨info, proposed, -, record, -⟩ := invariant.record collisionFree vote
    obtain rfl : parent = _ := record.parent
    exact ⟨_, record.supported.certified batchSound positive⟩

/-- Descending along votes is descending along the certificates of blocks. -/
theorem Invariant.descends (collisionFree : setting.crypto.CollisionFree)
    {ancestor block : BlockInfo}
    (descends : (setting.votingSystem system.log).Descends ancestor block) :
    Relation.ReflTransGen (Extends setting.crypto) ancestor block := by
  refine .mono ?_ _ _ descends
  rintro parent child ⟨author, committed, vote⟩
  obtain ⟨info, proposed, -, record, -⟩ := invariant.record collisionFree vote
  exact ⟨proposed, record.id.symm, record.round.symm, record.parent.symm⟩

/-- A ledger info that verifies commits its commit info. -/
theorem Invariant.committed (tolerable : setting.Tolerable infos)
    (batchSound : setting.crypto.BatchSound)
    (verified : signed.verifySignatures setting.crypto setting.epochState.verifier = .ok ())
    (authentic : setting.Authentic system.log signed) :
    (setting.votingSystem system.log).Committed signed.commitInfo := by
  obtain ⟨members, isQuorum, released⟩ := exists_honestQuorum batchSound verified authentic
  obtain ⟨witness, isMember, -⟩ := tolerable.intersect members members isQuorum isQuorum
  obtain ⟨honest, logged⟩ := released witness isMember
  obtain ⟨-, voteData, block, record, -, -⟩ := (invariant witness honest).data.votes _ logged
  refine ⟨members, voteData.proposed, voteData.parent, isQuorum, ?_⟩
  intro member isMember
  obtain ⟨honest, logged⟩ := released member isMember
  exact ⟨honest, _, logged, record.hash, rfl⟩

end

/-! ### An epoch with four validators -/

/-- An epoch with four validators, of which the last is faulty. -/
def crew : Setting where
  crypto := .symbolic
  epochState := { epoch := 1, verifier := fourValidators }
  faulty := [3]

/-- A proposal of a block that fills the round after a certificate. -/
def crewProposal (quorumCert : QuorumCert) : MaybeSignedVoteProposal where
  voteProposal :=
    { accumulatorExtensionProof :=
        { frozenSubtreeRoots := [], numLeaves := 0, leaves := [] }
      block :=
        { blockData :=
            { epoch := 1
              round := quorumCert.certifiedBlock.round + 1
              timestampUsecs := 0
              quorumCert
              blockType := .nilBlock }
          signature := none }
      nextEpochState := none
      decoupledExecution := true }
  signature := none

/-- The certificate that the votes of the honest validators for a proposal make. -/
def crewCertify (construct : Block → HashValue → Except Abort LedgerInfo)
    (proposal : MaybeSignedVoteProposal) : QuorumCert :=
  let voteData := proposal.voteProposal.voteDataOrderingOnly Crypto.symbolic
  let info := (construct proposal.voteProposal.block
    (Crypto.symbolic.hashVoteData voteData)).toOption.getD
      { commitInfo := .empty, consensusDataHash := .zero }
  { voteData
    signedLedgerInfo :=
      { ledgerInfo := info
        signatures := [0, 1, 2].foldl (fun signatures author => signatures.insert author
          (Crypto.symbolic.sign ⟨author⟩ (.ledgerInfo info))) .empty } }

/-- The certificates of consecutive rounds. -/
def crewChain (construct : Block → HashValue → Except Abort LedgerInfo) : Nat → QuorumCert
  | 0 => .ofGenesis Crypto.symbolic { BlockInfo.empty with epoch := 1 }
  | round + 1 => crewCertify construct (crewProposal (crewChain construct round))

/-- The ledger info that starts the epoch. -/
def crewBoundary : LedgerInfoWithSignatures where
  ledgerInfo :=
    { commitInfo :=
        { BlockInfo.empty with nextEpochState := some crew.epochState }
      consensusDataHash := .zero }
  signatures := .empty

/-- A validator before it enters the epoch. -/
def crewRules (author : AccountAddress) : SafetyRules :=
  (started
    { safetyData := freshSafetyData 0
      waypoint := { version := 0, value := .zero }
      ownerAccount := author
      consensusKeys := [⟨author⟩]
      executionKey := ⟨7⟩
      faults := []
      keyFaults := [] }
    author ⟨author⟩ ⟨7⟩ (.newAny Crypto.symbolic crewBoundary.ledgerInfo)
    { enableCachedSafetyData := true
      verifyVoteProposalSignature := false
      exportConsensusKey := true }).rules

/-- The honest validators enter the epoch and vote in some rounds. -/
def crewSystem (vote : Nat → Call) : (rounds : Nat) → ConsensusSystem
  | 0 => crew.callAll [0, 1, 2] (.initializeWith ⟨[crewBoundary], false⟩) ⟨crewRules, []⟩
  | round + 1 => crew.callAll [0, 1, 2] (vote round) (crewSystem vote round)

theorem crew_tolerable : crew.Tolerable fourInfos where
  built := rfl
  noOverflow := by decide
  fewFaulty := by decide

theorem crew_reachable {permits : Call → Prop} (vote : Nat → Call) {rounds : Nat}
    (enters : ∀ proof, permits (.initializeWith proof))
    (votes : ∀ round < rounds, permits (vote round) ∧
      crew.Admissible (crewSystem vote round).log (vote round)) :
    crew.Reachable permits (crewSystem vote rounds) := by
  have honest : ∀ author ∈ [0, 1, 2], author ∉ crew.faulty := by simp [crew]
  induction rounds with
  | zero =>
    have start : crew.Reachable permits ⟨crewRules, []⟩ :=
      .start crewRules fun author _ => ⟨by rintro data ⟨⟩; rfl, rfl, fun _ => rfl⟩
    refine start.callAll honest (enters _) ?_
    rintro epochState ⟨last, isLast, next⟩
    cases isLast
    exact (Option.some.inj next).symm
  | succ rounds ih =>
    obtain ⟨permitted, admissible⟩ := votes rounds (Nat.lt_succ_self _)
    exact (ih fun round small => votes round (Nat.lt_succ_of_lt small)).callAll honest permitted
      admissible

/-- A certificate is authentic once the votes are logged. -/
theorem crewChain_authentic {construct : Block → HashValue → Except Abort LedgerInfo} {round : Nat}
    {log older : SignatureLog} (newer : Nat)
    (logged : log.drop newer = ([2, 1, 0].map fun author =>
      (author, .ledgerInfo (crewChain construct (round + 1)).ledgerInfo.ledgerInfo)) ++ older) :
    crew.Authentic log (crewChain construct (round + 1)).ledgerInfo := by
  intro author signature found _ _
  have isSigner : author ∈ [0, 1, 2] := OrderedMap.mem_keys_iff.mpr ⟨signature, found⟩
  refine List.drop_subset newer log ?_
  rw [logged]
  exact List.mem_append_left _ (List.mem_map_of_mem (List.mem_reverse.mpr isSigner))

end Setting

end Diem
