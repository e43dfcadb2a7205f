import Mathlib.Algebra.GroupWithZero.Nat
import Mathlib.Algebra.Order.BigOperators.Group.Finset

namespace Diem.WeightedQuorum

/-!
# Weighted groups

Voting by weight: the members of a finite group carry natural-number weights, and
two groups that are heavy enough must share weight.  The members, the weights and
the thresholds are arbitrary.
-/

section

variable {Member : Type} (weight : Member → Nat)

/-- The combined weight of a finite group. -/
def groupWeight (group : Finset Member) : Nat :=
  ∑ member ∈ group, weight member

theorem groupWeight_mono {smaller larger : Finset Member} (included : smaller ⊆ larger) :
    groupWeight weight smaller ≤ groupWeight weight larger :=
  Finset.sum_le_sum_of_subset included

/--
Two groups inside a third one share at least what their weights exceed the
third one's by.
-/
theorem groupWeight_add_le [DecidableEq Member] {first second everyone : Finset Member}
    (firstIn : first ⊆ everyone) (secondIn : second ⊆ everyone) :
    groupWeight weight first + groupWeight weight second ≤
      groupWeight weight everyone + groupWeight weight (first ∩ second) := by
  have exchange : groupWeight weight (first ∪ second) + groupWeight weight (first ∩ second) =
        groupWeight weight first + groupWeight weight second :=
    Finset.sum_union_inter
  have unionLight : groupWeight weight (first ∪ second) ≤ groupWeight weight everyone :=
    groupWeight_mono weight (Finset.union_subset firstIn secondIn)
  omega

theorem exists_mem_not_mem {group faulty : Finset Member}
    (heavier : groupWeight weight faulty < groupWeight weight group) :
    ∃ member, member ∈ group ∧ member ∉ faulty := by
  by_contra none
  push Not at none
  have included : group ⊆ faulty := none
  exact absurd (groupWeight_mono weight included) (by omega)

theorem sum_map_eq_groupWeight [DecidableEq Member] {members : List Member}
    (noDuplicates : members.Nodup) :
    (members.map weight).sum = groupWeight weight members.toFinset :=
  (List.sum_toFinset weight noDuplicates).symm

end

end Diem.WeightedQuorum
