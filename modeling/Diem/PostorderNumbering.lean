import Diem.PositionSpec

namespace Diem

open MerkleForest Nat Position Word64

/-!
# Post-order numbers

Before a node in post-order come a full tree for each set bit of the last leaf below the node, and
the nodes between that leaf and the node.  Going back takes these trees off, the largest first.
-/

variable {level index : Nat}

/-- The loop finds the last leaf below a node, and leaves the level of the node. -/
theorem passFullTrees_eq {bits last bitmap : Nat} (bitsSmall : bits ≤ 64) (inside : last < 2 ^ bits)
    (aligned : 2 ^ min level bits ∣ last + 1) :
    passFullTrees bits (2 * last + level - countOnes last) (2 ^ bits - 1) bitmap =
      (level, bitmap ||| last) := by
  have fits : last < 2 ^ 64 := inside.trans_le (Nat.pow_le_pow_right (by decide) bitsSmall)
  -- The highest bit of `last` tells whether the tree of this round is passed.
  induction bits generalizing last bitmap with
  | zero =>
    obtain rfl : last = 0 := by omega
    have none : countOnes 0 = 0 := by decide
    simp [passFullTrees, none]
  | succ bits ih =>
    have halved : (2 ^ (bits + 1) - 1) >>> 1 = 2 ^ bits - 1 := by
      rw [Nat.shiftRight_one]
      omega
    rw [passFullTrees, halved]
    by_cases large : 2 ^ bits ≤ last
    · obtain ⟨rest, rfl⟩ := Nat.exists_eq_add_of_le large
      have restSmall : rest < 2 ^ bits := by omega
      have ones := countOnes_two_pow_add restSmall fits
      have restOnes := countOnes_le (by omega : rest < 2 ^ 64)
      have joined := two_pow_add_eq_or_of_lt restSmall 1
      have lower : min level bits ≤ min level (bits + 1) := by omega
      have divides := (pow_dvd_pow 2 lower).trans aligned
      rw [mul_one] at joined
      rw [Nat.add_assoc, Nat.dvd_add_right (pow_dvd_pow 2 (min_le_right level bits))] at divides
      have next :
          2 * (2 ^ bits + rest) + level - countOnes (2 ^ bits + rest) - (2 ^ (bits + 1) - 1) =
            2 * rest + level - countOnes rest := by
        omega
      rw [if_pos (by omega), next, shiftLeft_one (by omega),
        ih (by omega) restSmall divides (by omega), Nat.or_assoc, ← joined]
    · have levelSmall : min level (bits + 1) ≤ bits := by
        have least := Nat.le_of_dvd (by omega) aligned
        exact (Nat.pow_le_pow_iff_right Nat.one_lt_two).mp (by omega)
      rw [show min level (bits + 1) = min level bits by omega] at aligned
      obtain ⟨_ | high, shape⟩ := aligned
      · simp at shape
      · have ones := countOnes_pred shape fits
        rw [if_neg (by omega), ih (by omega) (by omega) ⟨high + 1, shape⟩ fits]

/-- The number of a node is found again. -/
theorem postorderToInorder_ofNode (inRange : InRange ⟨level, index⟩) :
    postorderToInorder (ofNode ⟨level, index⟩).toPostorderIndex =
      (ofNode ⟨level, index⟩).index := by
  have levelSmall := level_lt inRange
  have number := toPostorderIndex_ofNode inRange
  have stop : 2 * ((index + 1) * 2 ^ level) ≤ 2 ^ 64 := inRange
  have positive := Nat.two_pow_pos level
  obtain ⟨last, whole⟩ := Nat.exists_eq_add_one.mpr (Nat.mul_pos (Nat.add_one_pos index) positive)
  have divided : 2 ^ level * index + (2 ^ level - 1) = last := by
    have expanded : (index + 1) * 2 ^ level = 2 ^ level * index + 2 ^ level := by ring
    omega
  have shape : last + 1 = 2 ^ level * (index + 1) := by rw [← whole, mul_comm]
  have ones := countOnes_pred shape (by omega)
  have found := @passFullTrees_eq level 64 last 0 le_rfl (by omega)
    ⟨index + 1, by rw [min_eq_left levelSmall.le, shape]⟩
  have start : 2 * last + level - countOnes last = (ofNode ⟨level, index⟩).toPostorderIndex := by
    omega
  have size : complement 0 = 2 ^ 64 - 1 := by simp [complement]
  have quotient : last / 2 ^ level = index := by
    rw [← divided, Nat.mul_add_div positive, Nat.div_eq_of_lt (by omega), add_zero]
  rw [start, Nat.zero_or] at found
  rw [postorderToInorder, size, found]
  dsimp only
  rw [Nat.mod_eq_of_lt (by omega), shiftRight_eq_div_pow, quotient, fromLevelAndPos_eq inRange]
  rfl

/-- Every number but the largest belongs to a node. -/
theorem exists_ofNode {position : Position} (small : position.index < 2 ^ 64 - 1) :
    ∃ level index, InRange ⟨level, index⟩ ∧ position = ofNode ⟨level, index⟩ := by
  have fits : position.index + 1 < 2 ^ 64 := by omega
  obtain ⟨level, odd, inside, isOdd, shape⟩ := exists_odd_part (by omega) fits
  obtain ⟨index, rfl⟩ : ∃ index, odd = 2 * index + 1 := ⟨odd / 2, by omega⟩
  have expanded : 2 ^ level * (2 * index + 1) = 2 * (index * 2 ^ level) + 2 ^ level := by ring
  have positive := Nat.two_pow_pos level
  refine ⟨level, index, inRange_of_first_lt (by omega) (by omega), congrArg Position.mk ?_⟩
  rw [← index_add_one] at shape
  exact Nat.succ.inj shape

/-- The order of post-order numbers: a node that ends earlier, or ends with the other below it. -/
theorem toPostorderIndex_lt {level' index' : Nat} (inRange : InRange ⟨level, index⟩)
    (inRange' : InRange ⟨level', index'⟩)
    (earlier : (index + 1) * 2 ^ level < (index' + 1) * 2 ^ level' ∨
      (index + 1) * 2 ^ level = (index' + 1) * 2 ^ level' ∧ level < level') :
    (ofNode ⟨level, index⟩).toPostorderIndex < (ofNode ⟨level', index'⟩).toPostorderIndex := by
  have number := toPostorderIndex_ofNode inRange
  have number' := toPostorderIndex_ofNode inRange'
  have stop' : 2 * ((index' + 1) * 2 ^ level') ≤ 2 ^ 64 := inRange'
  have indexSmall := Nat.le_mul_of_pos_right (index + 1) (Nat.two_pow_pos level)
  obtain ⟨last', whole'⟩ :=
    Nat.exists_eq_add_one.mpr (Nat.mul_pos (Nat.add_one_pos index') (Nat.two_pow_pos level'))
  have ones' := @countOnes_pred last' level' index' (by rw [← whole', mul_comm]) (by omega)
  rcases earlier with before | ⟨same, lower⟩
  · have ends : (index + 1) * 2 ^ level ≤ last' := by omega
    obtain ⟨distance, between⟩ := Nat.exists_eq_add_of_le ends
    have rest := @countOnes_add_le ((index + 1) * 2 ^ level) distance (by omega)
    have next := @countOnes_add_le index 1 (by omega)
    rw [← between, mul_comm, countOnes_two_pow_mul (by rw [mul_comm]; omega)] at rest
    omega
  · have ones := @countOnes_pred last' level index (by rw [← whole', ← same, mul_comm]) (by omega)
    omega

/-- The leaves below a position are among those below another. -/
def Position.IsBelow (position root : Position) : Prop :=
  root.leftMostChild.index ≤ position.leftMostChild.index ∧
    position.rightMostChild.index ≤ root.rightMostChild.index

theorem postorderToInorder_inorderToPostorder {number : Nat} (small : number < 2 ^ 64 - 1) :
    inorderToPostorder number < 2 ^ 64 - 1 ∧
      postorderToInorder (inorderToPostorder number) = number := by
  obtain ⟨level, index, inRange, same⟩ := @exists_ofNode ⟨number⟩ small
  have postorder := toPostorderIndex_ofNode inRange
  have found := postorderToInorder_ofNode inRange
  have stop : 2 * ((index + 1) * 2 ^ level) ≤ 2 ^ 64 := inRange
  rw [← same] at postorder found
  simp only [toPostorderIndex, toInorderIndex] at postorder found
  exact ⟨by omega, found⟩

/--
In-order and post-order numbers are inverse to each other, and a node comes after the nodes below
it and after those whose leaves are all left of its own.
-/
theorem postorder_numbering :
    (∀ index < 2 ^ 64 - 1,
      inorderToPostorder index < 2 ^ 64 - 1 ∧ postorderToInorder index < 2 ^ 64 - 1 ∧
        postorderToInorder (inorderToPostorder index) = index ∧
        inorderToPostorder (postorderToInorder index) = index) ∧
    ∀ node root : Position, node.index < 2 ^ 64 - 1 → root.index < 2 ^ 64 - 1 → node ≠ root →
      node.IsBelow root ∨ node.rightMostChild.index < root.leftMostChild.index →
      node.toPostorderIndex < root.toPostorderIndex := by
  constructor
  · -- An injective map of a finite type is onto, so the inverse from one side is one from both.
    have surjective : Function.Surjective fun index : Fin (2 ^ 64 - 1) =>
        (⟨inorderToPostorder index, (postorderToInorder_inorderToPostorder index.isLt).1⟩ :
          Fin (2 ^ 64 - 1)) := by
      refine Finite.surjective_of_injective fun first second same => Fin.ext ?_
      rw [← (postorderToInorder_inorderToPostorder first.isLt).2, Fin.mk.inj same,
        (postorderToInorder_inorderToPostorder second.isLt).2]
    intro index small
    obtain ⟨⟨source, sourceSmall⟩, same⟩ := surjective ⟨index, small⟩
    obtain rfl : inorderToPostorder source = index := Fin.mk.inj same
    obtain ⟨bound, forth⟩ := postorderToInorder_inorderToPostorder small
    rw [(postorderToInorder_inorderToPostorder sourceSmall).2]
    exact ⟨bound, sourceSmall, forth, rfl⟩
  · intro node root small rootSmall different order
    obtain ⟨level, index, inRange, rfl⟩ := exists_ofNode small
    obtain ⟨level', index', inRange', rfl⟩ := exists_ofNode rootSmall
    have positive' := Nat.two_pow_pos level'
    have expanded : (index + 1) * 2 ^ level = index * 2 ^ level + 2 ^ level := by ring
    have expanded' : (index' + 1) * 2 ^ level' = index' * 2 ^ level' + 2 ^ level' := by ring
    simp only [IsBelow, leftMostChild_ofNode inRange, leftMostChild_ofNode inRange',
      rightMostChild_ofNode inRange, rightMostChild_ofNode inRange', Node.stop] at order
    apply toPostorderIndex_lt inRange inRange'
    rcases order with ⟨starts, ends⟩ | apart
    · by_cases same : (index + 1) * 2 ^ level = (index' + 1) * 2 ^ level'
      · refine .inr ⟨same, lt_of_le_of_ne ?_ ?_⟩
        · exact (Nat.pow_le_pow_iff_right Nat.one_lt_two).mp (by omega)
        · rintro rfl
          obtain rfl : index = index' :=
            Nat.succ.inj (Nat.eq_of_mul_eq_mul_right (Nat.two_pow_pos level) same)
          exact different rfl
      · exact .inl (by omega)
    · exact .inl (by omega)

end Diem
