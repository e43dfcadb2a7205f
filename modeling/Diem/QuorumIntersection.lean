import Diem.ValidatorVerifier

namespace Diem

open WeightedQuorum (sum_map_eq_groupWeight)
open Word64 List ValidatorConsensusInfo

/-!
# Which validator sets have intersecting quorums

The threshold `total * 2 / 3 + 1` makes any two quorums share more than a third of
the voting power as long as `total * 2` does not wrap around.  Past that point the
threshold is too small, and the quorums intersect only when no group of validators
and the rest of them reach the small threshold at the same time.
-/

namespace ValidatorVerifier

/--
The two facts consensus needs of a threshold: quorums share more than a third of
the voting power, and all validators together are a quorum.
-/
structure QuorumIntersection (verifier : ValidatorVerifier) : Prop where
  shared : ∀ {first second : List AccountAddress}, first.Nodup → second.Nodup →
    verifier.checkVotingPower first = .ok () →
    verifier.checkVotingPower second = .ok () →
    verifier.totalVotingPower <
      3 * verifier.combinedPower (first.filter fun author => author ∈ second)
  everyone : 1 ≤ verifier.totalVotingPower →
    verifier.checkVotingPower verifier.getOrderedAccountAddresses = .ok ()

/-- The voting powers of a map of validators, added without a bound. -/
def totalPowerOf (addressToValidatorInfo : ValidatorInfos) : Nat :=
  (addressToValidatorInfo.values.map votingPower).sum

/-- The voting power a map of validators gives to a group of authors. -/
def groupPowerOf (addressToValidatorInfo : ValidatorInfos)
    (group : List AccountAddress) : Nat :=
  (group.map fun author =>
    ((addressToValidatorInfo.get? author).map votingPower).getD 0).sum

/-- The checked sum is the unbounded sum, and exists when that sum fits. -/
theorem foldlM_checkedAdd?_eq_some_iff {powers : List ValidatorConsensusInfo} {start total : Nat}
    (fits : start < 2 ^ 64) :
    powers.foldlM (fun sum info => checkedAdd? sum info.votingPower) start = some total ↔
      total = start + (powers.map votingPower).sum ∧ total < 2 ^ 64 := by
  induction powers generalizing start with
  | nil =>
    simp only [foldlM_nil, map_nil, sum_nil, Nat.add_zero, Option.pure_def, Option.some.injEq]
    constructor
    · intro same
      exact ⟨same.symm, same ▸ fits⟩
    · exact fun shape => shape.1.symm
  | cons info rest ih =>
    rw [foldlM_cons]
    cases added : checkedAdd? start info.votingPower with
    | none =>
      have overflows : 2 ^ 64 ≤ start + info.votingPower := by
        by_contra fitsAfterAll
        rw [checkedAdd?, if_pos (by omega)] at added
        cases added
      simp only [Option.bind_eq_bind, Option.bind_none, reduceCtorEq, map_cons, sum_cons, false_iff]
      omega
    | some sum =>
      obtain ⟨sumShape, sumFits⟩ := checkedAdd?_eq_some_iff.mp added
      subst sumShape
      simp only [Option.bind_eq_bind, Option.bind_some, ih sumFits, map_cons,
        sum_cons, Nat.add_assoc]

variable {infos : ValidatorInfos}
  {verifier : ValidatorVerifier}

/-- What a verifier built by `new` holds. -/
theorem new_eq_some_iff {verifier : ValidatorVerifier} :
    new infos = some verifier ↔ totalPowerOf infos < 2 ^ 64 ∧ verifier =
      { addressToValidatorInfo := infos
        quorumVotingPower :=
          if infos.isEmpty then
            0
          else
            wrap (wrap (totalPowerOf infos * 2) / 3 + 1)
        totalVotingPower := totalPowerOf infos } := by
  have summed :
      ∀ total, sumVotingPower infos = some total ↔ total = totalPowerOf infos ∧ total < 2 ^ 64 := by
    intro total
    have loop := @foldlM_checkedAdd?_eq_some_iff infos.values 0 total (by decide)
    simpa [sumVotingPower, totalPowerOf] using loop
  cases sum : sumVotingPower infos with
  | none =>
    have overflows : ¬ totalPowerOf infos < 2 ^ 64 := by
      intro fits
      rw [(summed _).mpr ⟨rfl, fits⟩] at sum
      cases sum
    have notBuilt : new infos = none := by simp [new, sum]
    rw [notBuilt]
    constructor
    · intro impossible
      cases impossible
    · rintro ⟨fits, -⟩
      exact (overflows fits).elim
  | some total =>
    obtain ⟨totalShape, fits⟩ := (summed total).mp sum
    subst totalShape
    simp only [new, sum, Option.bind_eq_bind, Option.bind_some,
      Option.pure_def, Option.some.injEq, fits, true_and]
    exact eq_comm

section Built

theorem combinedPower_eq_groupPowerOf (built : new infos = some verifier)
    (group : List AccountAddress) : verifier.combinedPower group = groupPowerOf infos group := by
  obtain ⟨-, rfl⟩ := new_eq_some_iff.mp built
  rfl

/-- The powers looked up at all keys add up to the total power. -/
theorem groupPowerOf_keys (infos : ValidatorInfos) :
    groupPowerOf infos infos.keys = totalPowerOf infos := by
  have lookups : infos.entries.map
          (fun entry => ((infos.get? entry.1).map votingPower).getD 0) =
        infos.entries.map (fun entry => entry.2.votingPower) := by
    apply map_congr_left
    intro entry member
    rw [OrderedMap.get?_eq_some_iff.mpr member]
    rfl
  simpa [groupPowerOf, totalPowerOf, OrderedMap.keys,
    OrderedMap.values, map_map, Function.comp_def] using
    congrArg sum lookups

variable {group : List AccountAddress}

section

variable (known : ∀ author ∈ group, author ∈ infos.keys)
include known

theorem toFinset_subset_keys : group.toFinset ⊆ infos.keys.toFinset := by
  intro author member
  exact mem_toFinset.mpr (known author (mem_toFinset.mp member))

/-- A group and the remaining validators have the total power together. -/
theorem groupPowerOf_rest_add (noDuplicates : group.Nodup) :
    groupPowerOf infos (infos.keys.filter fun author => author ∉ group) + groupPowerOf infos group =
      totalPowerOf infos := by
  have restSet : (infos.keys.filter fun author => author ∉ group).toFinset =
        infos.keys.toFinset \ group.toFinset := by
    ext author
    simp
  rw [← groupPowerOf_keys infos]
  unfold groupPowerOf
  rw [sum_map_eq_groupWeight _ (infos.keys_nodup.filter _), sum_map_eq_groupWeight _ noDuplicates,
    sum_map_eq_groupWeight _ infos.keys_nodup, restSet]
  exact Finset.sum_sdiff (toFinset_subset_keys known)

/-- Known authors without repetition have at most the total power. -/
theorem groupPowerOf_le (noDuplicates : group.Nodup) :
    groupPowerOf infos group ≤ totalPowerOf infos := by
  have total := groupPowerOf_rest_add known noDuplicates
  omega

end

/-- Two groups of known authors share what their powers exceed the total by. -/
theorem groupPowerOf_add_le {first second : List AccountAddress} (firstNodup : first.Nodup)
    (secondNodup : second.Nodup) (firstKnown : ∀ author ∈ first, author ∈ infos.keys)
    (secondKnown : ∀ author ∈ second, author ∈ infos.keys) :
    groupPowerOf infos first + groupPowerOf infos second ≤
      totalPowerOf infos + groupPowerOf infos (first.filter fun author => author ∈ second) := by
  have sharedSet :
      (first.filter fun author => author ∈ second).toFinset = first.toFinset ∩ second.toFinset := by
    ext author
    simp
  rw [← groupPowerOf_keys infos]
  unfold groupPowerOf
  rw [sum_map_eq_groupWeight _ firstNodup, sum_map_eq_groupWeight _ secondNodup,
    sum_map_eq_groupWeight _ infos.keys_nodup,
    sum_map_eq_groupWeight _ (firstNodup.filter _), sharedSet]
  exact WeightedQuorum.groupWeight_add_le _ (toFinset_subset_keys firstKnown)
    (toFinset_subset_keys secondKnown)

/-- What a built verifier accepts, with no wrap-around left in the count. -/
theorem checkVotingPower_built_iff (built : new infos = some verifier)
    (noDuplicates : group.Nodup) :
    verifier.checkVotingPower group = .ok () ↔ (∀ author ∈ group, author ∈ infos.keys) ∧
      verifier.quorumVotingPower ≤ groupPowerOf infos group := by
  obtain ⟨fits, shape⟩ := new_eq_some_iff.mp built
  have sameKeys : verifier.getOrderedAccountAddresses = infos.keys := by
    rw [shape]
    rfl
  rw [checkVotingPower_ok_iff, sameKeys, combinedPower_eq_groupPowerOf built]
  refine and_congr_right fun known => ?_
  have light := groupPowerOf_le known noDuplicates
  rw [wrap_eq_self (by omega)]

section

variable (nonempty : infos.isEmpty = false) (built : new infos = some verifier)
include nonempty built

/-- The threshold, as the doubled total fits in 64 bits or wraps around. -/
theorem quorumVotingPower_cases :
    (totalPowerOf infos < 2 ^ 63 → verifier.quorumVotingPower = 2 * totalPowerOf infos / 3 + 1) ∧
    (2 ^ 63 ≤ totalPowerOf infos →
      verifier.quorumVotingPower = (2 * totalPowerOf infos - 2 ^ 64) / 3 + 1) := by
  obtain ⟨fits, rfl⟩ := new_eq_some_iff.mp built
  simp only [nonempty, Bool.false_eq_true, if_false, wrap]
  have noWrap : totalPowerOf infos * 2 % 2 ^ 64 / 3 + 1 < 2 ^ 64 := by omega
  rw [Nat.mod_eq_of_lt noWrap]
  constructor
  · intro small
    rw [Nat.mod_eq_of_lt (by omega), Nat.mul_comm]
  · intro large
    have doubled : totalPowerOf infos * 2 % 2 ^ 64 = 2 * totalPowerOf infos - 2 ^ 64 := by omega
    rw [doubled]

/-- Quorums of a verifier whose doubled total fits share over a third of the power. -/
theorem quorums_share_of_small (small : totalPowerOf infos < 2 ^ 63)
    {first second : List AccountAddress} (firstNodup : first.Nodup) (secondNodup : second.Nodup)
    (firstPasses : verifier.checkVotingPower first = .ok ())
    (secondPasses : verifier.checkVotingPower second = .ok ()) :
    totalPowerOf infos < 3 * groupPowerOf infos (first.filter fun author => author ∈ second) := by
  obtain ⟨firstKnown, firstEnough⟩ := (checkVotingPower_built_iff built firstNodup).mp firstPasses
  obtain ⟨secondKnown, secondEnough⟩ :=
    (checkVotingPower_built_iff built secondNodup).mp secondPasses
  have exchange := groupPowerOf_add_le firstNodup secondNodup firstKnown secondKnown
  have threshold := (quorumVotingPower_cases nonempty built).1 small
  omega

end

/--
Quorums intersect exactly when the doubled total fits in 64 bits, or no group of
validators and its complement are both heavier than the wrapped third.
-/
theorem quorumIntersection_iff
    (nonempty : infos.isEmpty = false)
    (built : new infos = some verifier) :
    QuorumIntersection verifier ↔ totalPowerOf infos < 2 ^ 63 ∨
      ∀ group : List AccountAddress, group.Nodup → (∀ author ∈ group, author ∈ infos.keys) →
        ¬ ((2 * totalPowerOf infos - 2 ^ 64) / 3 < groupPowerOf infos group ∧
            (2 * totalPowerOf infos - 2 ^ 64) / 3 <
              totalPowerOf infos - groupPowerOf infos group) := by
  have totalShape : verifier.totalVotingPower = totalPowerOf infos := by
    obtain ⟨-, rfl⟩ := new_eq_some_iff.mp built
    rfl
  have fits := (new_eq_some_iff.mp built).1
  have keysShape : verifier.getOrderedAccountAddresses = infos.keys := by
    obtain ⟨-, rfl⟩ := new_eq_some_iff.mp built
    rfl
  have threshold := quorumVotingPower_cases nonempty built
  constructor
  · intro intersects
    by_contra neither
    push Not at neither
    obtain ⟨large, group, groupNodup, groupKnown, groupHeavy, restHeavy⟩ := neither
    let rest := infos.keys.filter fun author => author ∉ group
    have restNodup : rest.Nodup := infos.keys_nodup.filter _
    have restKnown : ∀ author ∈ rest, author ∈ infos.keys :=
      fun author member => mem_of_mem_filter member
    have restPower : groupPowerOf infos rest + groupPowerOf infos group = totalPowerOf infos :=
      groupPowerOf_rest_add groupKnown groupNodup
    have nothingShared : (group.filter fun author => author ∈ rest) = [] := by
      rw [filter_eq_nil_iff]
      intro author member
      simp [rest, member]
    have contradiction := intersects.shared groupNodup restNodup
      ((checkVotingPower_built_iff built groupNodup).mpr ⟨groupKnown, by omega⟩)
      ((checkVotingPower_built_iff built restNodup).mpr ⟨restKnown, by omega⟩)
    rw [nothingShared] at contradiction
    simp [combinedPower] at contradiction
  · intro condition
    constructor
    · intro first second firstNodup secondNodup firstPasses secondPasses
      rw [totalShape, combinedPower_eq_groupPowerOf built]
      by_cases small : totalPowerOf infos < 2 ^ 63
      · exact quorums_share_of_small nonempty built small
          firstNodup secondNodup firstPasses secondPasses
      · obtain ⟨firstKnown, firstEnough⟩ :=
          (checkVotingPower_built_iff built firstNodup).mp firstPasses
        obtain ⟨secondKnown, secondEnough⟩ :=
          (checkVotingPower_built_iff built secondNodup).mp secondPasses
        have exchange := groupPowerOf_add_le firstNodup secondNodup firstKnown secondKnown
        have unsplittable := condition.resolve_left small
        have firstUnsplit := unsplittable first firstNodup firstKnown
        have secondUnsplit := unsplittable second secondNodup secondKnown
        omega
    · intro positive
      rw [keysShape, checkVotingPower_built_iff built infos.keys_nodup, groupPowerOf_keys]
      exact ⟨fun author member => member, by omega⟩

end Built

/-- Two validators that hold `2 ^ 62` voting power each. -/
def twoHeavyValidators : ValidatorInfos where
  entries := [(0, ⟨⟨0⟩, 2 ^ 62⟩), (1, ⟨⟨1⟩, 2 ^ 62⟩)]
  sorted := by decide

/-- The criterion applied to a map whose threshold has wrapped around. -/
theorem quorumIntersection_twoHeavyValidators :
    ∃ verifier, new twoHeavyValidators = some verifier ∧ ¬ QuorumIntersection verifier := by
  have nonempty : twoHeavyValidators.isEmpty = false := rfl
  refine ⟨_, rfl, ?_⟩
  rw [quorumIntersection_iff nonempty rfl]
  push Not
  exact ⟨by decide, [0], by decide, by decide, by decide, by decide⟩

/--
With two validators of power `2 ^ 62` the doubled total wraps to zero, so each of
them is a quorum on its own and the two quorums share nobody.
-/
theorem disjoint_quorums_of_wrapped_total :
    ¬ ∀ (infos : ValidatorInfos) (verifier : ValidatorVerifier),
        infos.isEmpty = false →
        new infos = some verifier →
        QuorumIntersection verifier := by
  intro always
  have intersects := @QuorumIntersection.shared _ (always twoHeavyValidators _ rfl rfl)
    [0] [1] (by decide) (by decide) rfl rfl
  revert intersects
  decide

end ValidatorVerifier

end Diem
