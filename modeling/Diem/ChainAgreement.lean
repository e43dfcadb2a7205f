import Mathlib.Data.Set.Basic

namespace Diem

/-!
# Agreement of chained voting protocols

Replicas vote for blocks in rounds.  A vote names the block, its parent, and a block
that becomes committed once a quorum has cast this vote.  Only the votes of replicas
that follow the rules are considered, and a quorum is represented by those of its
members.

The rules are stated without any state: each of them compares votes of one replica,
or says what has to exist for a vote to be cast.  From them follows that the committed
blocks lie on one chain, for a protocol that commits the parent of a block and for one
that commits the grandparent.
-/

/-- The votes of rule-following replicas, the rounds of blocks and the quorums. -/
structure VotingSystem (Replica Ref : Type) where
  round : Ref → Nat
  votes : Replica → (block parent committed : Ref) → Prop
  quorum : Set Replica → Prop

namespace VotingSystem

variable {Replica Ref : Type} (system : VotingSystem Replica Ref)

/-- A quorum voted for a block on the given parent. -/
def Certified (block parent : Ref) : Prop :=
  ∃ members, system.quorum members ∧
    ∀ member ∈ members, ∃ committed, system.votes member block parent committed

/-- A quorum cast a vote that commits the block. -/
def Committed (committed : Ref) : Prop :=
  ∃ members block parent,
    system.quorum members ∧ ∀ member ∈ members, system.votes member block parent committed

/-- A replica voted for the block on the given parent. -/
def Parent (parent block : Ref) : Prop :=
  ∃ replica committed, system.votes replica block parent committed

/-- The block is reached from the ancestor along parents. -/
def Descends : (ancestor block : Ref) → Prop :=
  Relation.ReflTransGen system.Parent

/-- The rules that chained protocols share. -/
structure Rules (system : VotingSystem Replica Ref) : Prop where
  intersect : ∀ first second,
    system.quorum first → system.quorum second → ∃ member, member ∈ first ∧ member ∈ second
  increasing : ∀ replica block parent committed,
    system.votes replica block parent committed → system.round parent < system.round block
  oncePerRound : ∀ replica block parent committed block' parent' committed',
    system.votes replica block parent committed →
    system.votes replica block' parent' committed' →
    system.round block = system.round block' → block = block' ∧ parent = parent'
  parentCertified : ∀ replica block parent committed, system.votes replica block parent committed →
    0 < system.round parent → ∃ grandparent, system.Certified parent grandparent

variable {system : VotingSystem Replica Ref} {block parent : Ref}

theorem Rules.voter (rules : system.Rules) (certified : system.Certified block parent) :
    ∃ replica committed, system.votes replica block parent committed := by
  obtain ⟨members, isQuorum, voted⟩ := certified
  obtain ⟨member, isMember, -⟩ := rules.intersect members members isQuorum isQuorum
  obtain ⟨committed, vote⟩ := voted member isMember
  exact ⟨member, committed, vote⟩

/-- A round has at most one certified block, and that block one parent. -/
theorem Rules.certified_unique (rules : system.Rules) {block' parent' : Ref}
    (certified : system.Certified block parent) (certified' : system.Certified block' parent')
    (sameRound : system.round block = system.round block') : block = block' ∧ parent = parent' := by
  obtain ⟨members, isQuorum, voted⟩ := certified
  obtain ⟨members', isQuorum', voted'⟩ := certified'
  obtain ⟨member, inFirst, inSecond⟩ := rules.intersect members members' isQuorum isQuorum'
  obtain ⟨committed, vote⟩ := voted member inFirst
  obtain ⟨committed', vote'⟩ := voted' member inSecond
  exact rules.oncePerRound _ _ _ _ _ _ _ vote vote' sameRound

/--
Certified blocks descend from a block when each of them does directly, or has a
parent that is not of an earlier round.
-/
theorem Rules.descends (rules : system.Rules) {ancestor : Ref}
    (positive : 0 < system.round ancestor)
    (near : ∀ block parent, system.Certified block parent →
      system.round ancestor ≤ system.round block →
        system.Descends ancestor block ∨ system.round ancestor ≤ system.round parent)
    (certified : system.Certified block parent)
    (later : system.round ancestor ≤ system.round block) :
    system.Descends ancestor block := by
  induction bound : system.round block using Nat.strong_induction_on generalizing block parent with
  | h bound ih =>
    subst bound
    rcases near block parent certified later with direct | parentLater
    · exact direct
    · obtain ⟨replica, committed, vote⟩ := rules.voter certified
      obtain ⟨grandparent, parentCertified⟩ := rules.parentCertified _ _ _ _ vote (by omega)
      have parentDescends := ih _ (rules.increasing _ _ _ _ vote) parentCertified parentLater rfl
      exact parentDescends.tail ⟨replica, committed, vote⟩

/-- The block is certified, and later certified blocks descend from it. -/
structure Settled (system : VotingSystem Replica Ref) (block : Ref) : Prop where
  certified : ∃ parent, system.Certified block parent
  descends : ∀ later parent, system.Certified later parent →
    system.round block ≤ system.round later → system.Descends block later

/-- Committed blocks lie on one chain if certified blocks descend from them. -/
theorem Rules.agreement
    (settles : ∀ committed, system.Committed committed → 0 < system.round committed →
      system.Settled committed)
    {first second : Ref}
    (firstCommitted : system.Committed first)
    (firstPositive : 0 < system.round first)
    (secondCommitted : system.Committed second)
    (secondPositive : 0 < system.round second) :
    system.Descends first second ∨ system.Descends second first := by
  obtain ⟨⟨_, firstCertified⟩, fromFirst⟩ := settles first firstCommitted firstPositive
  obtain ⟨⟨_, secondCertified⟩, fromSecond⟩ := settles second secondCommitted secondPositive
  rcases le_total (system.round first) (system.round second) with early | late
  · exact .inl (fromFirst _ _ secondCertified early)
  · exact .inr (fromSecond _ _ firstCertified late)

variable {committed : Ref} (isCommitted : system.Committed committed)
  (positive : 0 < system.round committed)

/-- The rules of a protocol that commits the parent of a block. -/
structure TwoChainRules (system : VotingSystem Replica Ref)
    (timeouts : Replica → (round highest : Nat) → Prop) : Prop extends Rules system where
  commits : ∀ replica block parent committed, system.votes replica block parent committed →
    0 < system.round committed → committed = parent ∧ system.round block = system.round parent + 1
  justified : ∀ replica block parent committed,
    system.votes replica block parent committed → system.round block = system.round parent + 1 ∨
      ∃ members timeoutRound, system.quorum members ∧ system.round block = timeoutRound + 1 ∧
        ∀ member ∈ members, ∃ highest,
          timeouts member timeoutRound highest ∧ highest ≤ system.round parent
  timeoutAfterVote : ∀ replica block parent committed timeoutRound highest,
    system.votes replica block parent committed →
    timeouts replica timeoutRound highest →
    system.round block ≤ timeoutRound → system.round parent ≤ highest

namespace TwoChainRules

variable {timeouts : Replica → (round highest : Nat) → Prop}

section

variable (rules : system.TwoChainRules timeouts)
include rules isCommitted positive

/-- A committed block is the parent of a certified one in the next round. -/
theorem committed_cases :
    ∃ child grandparent, system.Certified child committed ∧
      system.round child = system.round committed + 1 ∧
      system.Certified committed grandparent := by
  obtain ⟨members, block, parent, isQuorum, voted⟩ := isCommitted
  obtain ⟨member, isMember, -⟩ := rules.intersect members members isQuorum isQuorum
  have vote := voted member isMember
  obtain ⟨rfl, follows⟩ := rules.commits _ _ _ _ vote positive
  obtain ⟨grandparent, certified⟩ := rules.parentCertified _ _ _ _ vote positive
  exact ⟨block, grandparent, ⟨members, isQuorum, fun other isOther => ⟨_, voted other isOther⟩⟩,
    follows, certified⟩

/-- Every certified block of a round not below a committed block descends from it. -/
theorem settles : system.Settled committed := by
  obtain ⟨child, grandparent, childCertified, follows, selfCertified⟩ :=
    rules.committed_cases isCommitted positive
  refine ⟨⟨_, selfCertified⟩, fun _ _ => rules.toRules.descends positive ?_⟩
  intro block parent certified later
  rcases Nat.lt_trichotomy (system.round block) (system.round child) with
    early | sameRound | late
  · have sameAsCommitted := rules.certified_unique selfCertified certified (by omega)
    exact .inl (sameAsCommitted.1 ▸ Relation.ReflTransGen.refl)
  · obtain ⟨rfl, rfl⟩ := rules.certified_unique childCertified certified sameRound.symm
    exact .inr le_rfl
  · obtain ⟨replica, alsoCommitted, vote⟩ := rules.toRules.voter certified
    rcases rules.justified _ _ _ _ vote with
      consecutive | ⟨members, timeoutRound, isQuorum, followsTimeout, timedOut⟩
    · exact .inr (by omega)
    · obtain ⟨voters, isVoters, voted⟩ := childCertified
      obtain ⟨member, isVoter, isMember⟩ := rules.intersect voters members isVoters isQuorum
      obtain ⟨_, childVote⟩ := voted member isVoter
      obtain ⟨highest, timeout, bounded⟩ := timedOut member isMember
      have aboveCommitted := rules.timeoutAfterVote _ _ _ _ _ _ childVote timeout (by omega)
      exact .inr (aboveCommitted.trans bounded)

end

end TwoChainRules

/-- The rules of a protocol that commits the grandparent of a block. -/
structure ThreeChainRules (system : VotingSystem Replica Ref) : Prop extends Rules system where
  commits : ∀ replica block parent committed, system.votes replica block parent committed →
    0 < system.round committed → system.Certified parent committed ∧
      system.round parent = system.round committed + 1 ∧
      system.round block = system.round parent + 1
  preferred : ∀ replica block parent committed block' parent' committed',
    system.votes replica block parent committed →
    system.votes replica block' parent' committed' →
    system.round block < system.round block' → system.round committed ≤ system.round parent'

namespace ThreeChainRules

section

variable (rules : system.ThreeChainRules)
include rules isCommitted positive

/-- A committed block has a certified child and grandchild in the next rounds. -/
theorem committed_cases :
    ∃ members block parent grandparent, system.quorum members ∧
      (∀ member ∈ members, system.votes member block parent committed) ∧
      system.Certified parent committed ∧
      system.Certified committed grandparent ∧
      system.round parent = system.round committed + 1 ∧
      system.round block = system.round parent + 1 := by
  obtain ⟨members, block, parent, isQuorum, voted⟩ := isCommitted
  obtain ⟨member, isMember, -⟩ := rules.intersect members members isQuorum isQuorum
  obtain ⟨parentCertified, parentFollows, blockFollows⟩ :=
    rules.commits _ _ _ _ (voted member isMember) positive
  obtain ⟨replica, alsoCommitted, parentVote⟩ := rules.toRules.voter parentCertified
  obtain ⟨grandparent, certified⟩ := rules.parentCertified _ _ _ _ parentVote positive
  exact ⟨members, block, parent, grandparent, isQuorum, voted,
    parentCertified, certified, parentFollows, blockFollows⟩

/-- Every certified block of a round not below a committed block descends from it. -/
theorem settles : system.Settled committed := by
  obtain ⟨members, grandchild, child, grandparent, isQuorum, voted,
    childCertified, selfCertified, childFollows, grandchildFollows⟩ :=
    rules.committed_cases isCommitted positive
  have grandchildCertified : system.Certified grandchild child :=
    ⟨members, isQuorum, fun member isMember => ⟨_, voted member isMember⟩⟩
  refine ⟨⟨_, selfCertified⟩, fun _ _ => rules.toRules.descends positive ?_⟩
  intro block parent certified later
  by_cases isSelf : system.round block = system.round committed
  · have sameAsCommitted := rules.certified_unique selfCertified certified isSelf.symm
    exact .inl (sameAsCommitted.1 ▸ Relation.ReflTransGen.refl)
  by_cases isChild : system.round block = system.round child
  · obtain ⟨rfl, rfl⟩ := rules.certified_unique childCertified certified isChild.symm
    exact .inr le_rfl
  by_cases isGrandchild : system.round block = system.round grandchild
  · obtain ⟨rfl, rfl⟩ := rules.certified_unique grandchildCertified certified isGrandchild.symm
    exact .inr (by omega)
  obtain ⟨voters, isVoters, votedLater⟩ := certified
  obtain ⟨member, isMember, isVoter⟩ := rules.intersect members voters isQuorum isVoters
  obtain ⟨alsoCommitted, laterVote⟩ := votedLater member isVoter
  exact .inr (rules.preferred _ _ _ _ _ _ _ (voted member isMember) laterVote (by omega))

end

end ThreeChainRules

end VotingSystem

end Diem
