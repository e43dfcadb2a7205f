import Diem.InMemoryAccumulator

namespace Diem.InMemoryAccumulator

open MerkleForest Fallible List Nat

/-!
# The in-memory accumulator computes the forest of its leaves

`summary` is the accumulator of the first `count` leaves stated through the Merkle
forest: the hashes of the maximal perfect subtrees and the root of the padded tree.
Every constructor of the accumulator yields a summary, and appending leaves moves
from one summary to the next.
-/

variable {Hash : Type} (hasher : Hasher Hash) (leaf : Nat → Hash)

/-- The hashes of the maximal perfect subtrees over `count` nodes of a level. -/
def forestRoots (level count : Nat) : List Hash :=
  (frozenNodes level count).map (Node.hash hasher leaf)

/-- The accumulator of the first `count` leaves. -/
def summary (count : Nat) : InMemoryAccumulator Hash where
  frozenSubtreeRoots := forestRoots hasher leaf 0 count
  numLeaves := count
  rootHash := MerkleForest.rootHash hasher leaf count

/-- A list of leaves continues a leaf sequence from a given index. -/
def LeavesFrom (first : Nat) (leaves : List Hash) : Prop :=
  ∀ offset (inside : offset < leaves.length), leaves.get ⟨offset, inside⟩ = leaf (first + offset)

@[simp] theorem forestRoots_zero (level : Nat) : forestRoots hasher leaf level 0 = [] := by
  simp [forestRoots]

theorem forestRoots_even (level half : Nat) :
    forestRoots hasher leaf level (2 * half) = forestRoots hasher leaf (level + 1) half := by
  rw [forestRoots, frozenNodes_even, forestRoots]

theorem forestRoots_odd (level half : Nat) :
    forestRoots hasher leaf level (2 * half + 1) =
      forestRoots hasher leaf (level + 1) half ++ [subtreeHash hasher leaf level (2 * half)] := by
  rw [forestRoots, frozenNodes_odd, map_append, forestRoots]
  rfl

theorem forestRoots_two_pow_mul (level zeros count : Nat) :
    forestRoots hasher leaf level (2 ^ zeros * count) =
      forestRoots hasher leaf (level + zeros) count := by
  rw [forestRoots, frozenNodes_two_pow_mul, forestRoots]

theorem length_forestRoots {level count : Nat} (fits : count < 2 ^ 64) :
    (forestRoots hasher leaf level count).length = Word64.countOnes count := by
  rw [forestRoots, length_map, length_frozenNodes fits]

/--
Merging once for every trailing one of the count carries the next subtree into the
forest.
-/
theorem mergeRightmost_forestRoots {level count carries odd : Nat} (isOdd : odd % 2 = 1)
    (shape : count + 1 = 2 ^ carries * odd) :
    mergeRightmost hasher carries
        (subtreeHash hasher leaf level count :: (forestRoots hasher leaf level count).reverse) =
      .ok (forestRoots hasher leaf level (count + 1)).reverse := by
  induction carries generalizing level count with
  | zero =>
    obtain ⟨half, rfl⟩ : ∃ half, count = 2 * half := ⟨count / 2, by omega⟩
    rw [mergeRightmost, forestRoots_odd, forestRoots_even]
    simp
  | succ carries ih =>
    have doubled : 2 ^ (carries + 1) * odd = 2 * (2 ^ carries * odd) := by ring
    obtain ⟨half, rfl⟩ : ∃ half, count = 2 * half + 1 := ⟨count / 2, by omega⟩
    have halfShape : half + 1 = 2 ^ carries * odd := by omega
    have merged := @ih (level + 1) half halfShape
    have nextCount : 2 * half + 1 + 1 = 2 * (half + 1) := by ring
    rw [forestRoots_odd, nextCount, forestRoots_even]
    simpa [mergeRightmost, subtreeHash] using merged

variable {count : Nat} {leaves : List Hash}

/-- Appending one leaf moves the forest to the next leaf count. -/
theorem appendOne_forestRoots (fits : count + 1 < 2 ^ 64) :
    appendOne hasher (forestRoots hasher leaf 0 count).reverse count (leaf count) =
      .ok (forestRoots hasher leaf 0 (count + 1)).reverse := by
  obtain ⟨ones, odd, -, isOdd, shape⟩ := Word64.exists_odd_part (succ_pos count) fits
  rw [appendOne, Word64.trailingZeros_complement isOdd shape fits]
  have merged := @mergeRightmost_forestRoots Hash hasher leaf 0 count ones odd isOdd shape
  simpa [subtreeHash] using merged

theorem appendLoop_forestRoots (continues : LeavesFrom leaf count leaves)
    (fits : count + leaves.length < 2 ^ 64) :
    appendLoop hasher leaves (forestRoots hasher leaf 0 count).reverse count =
      .ok ((forestRoots hasher leaf 0 (count + leaves.length)).reverse, count + leaves.length) := by
  induction leaves generalizing count with
  | nil => rfl
  | cons first rest ih =>
    rw [length_cons] at fits
    have firstLeaf : first = leaf count := continues 0 (succ_pos _)
    have restContinues : LeavesFrom leaf (count + 1) rest := by
      intro offset inside
      have here := continues (offset + 1) (succ_lt_succ inside)
      rw [add_right_comm, add_assoc]
      exact here
    have appended := ih restContinues (by omega)
    have lengths : count + 1 + rest.length = count + (rest.length + 1) := by omega
    rw [appendLoop, firstLeaf, appendOne_forestRoots hasher leaf (by omega), ok_bind,
      Word64.wrap_eq_self (by omega), appended, lengths, length_cons]

theorem computeRootLoop_zero (bits : Nat) (currentHash : Hash) (roots : List Hash) :
    computeRootLoop hasher bits 0 currentHash roots = .ok currentHash := by
  cases bits <;> simp [computeRootLoop]

theorem computeRootLoop_even {half : Nat} (positive : 0 < half) (bits : Nat) (currentHash : Hash)
    (roots : List Hash) :
    computeRootLoop hasher (bits + 1) (2 * half) currentHash roots =
      computeRootLoop hasher bits half (hasher.internal currentHash hasher.placeholder) roots := by
  simp [computeRootLoop, positive, and_one_is_mod, shiftRight_one]

theorem computeRootLoop_odd (bits half : Nat) (currentHash root : Hash) (roots : List Hash) :
    computeRootLoop hasher (bits + 1) (2 * half + 1) currentHash (root :: roots) =
      computeRootLoop hasher bits half (hasher.internal root currentHash) roots := by
  have halved : (2 * half + 1) >>> 1 = half := by omega
  simp [computeRootLoop, and_one_is_mod, halved]

/--
The root loop started at some level walks up the padded tree, to the first level
above the whole count.
-/
theorem computeRootLoop_forestRoots {bits level quotient : Nat} (small : quotient < 2 ^ bits)
    (below : quotient * 2 ^ level ≤ count) (above : count < (quotient + 1) * 2 ^ level)
    (shape : quotient % 2 = 1 ∨ quotient * 2 ^ level < count) :
    ∃ top, count < 2 ^ top ∧ (top = level ∨ 2 ^ top ≤ 2 * count) ∧
      computeRootLoop hasher bits quotient (paddedHash hasher leaf count level quotient)
          (forestRoots hasher leaf level quotient).reverse =
        .ok (paddedHash hasher leaf count top 0) := by
  induction bits generalizing level quotient with
  | zero =>
    have done : quotient = 0 := by omega
    subst done
    exact ⟨level, by omega, .inl rfl, computeRootLoop_zero ..⟩
  | succ bits ih =>
    by_cases done : quotient = 0
    · subst done
      exact ⟨level, by omega, .inl rfl, computeRootLoop_zero ..⟩
    have power : 2 ^ (level + 1) = 2 * 2 ^ level := by ring
    have levelSmall : 2 ^ level ≤ count := by
      have quotientPositive : 0 < quotient := pos_of_ne_zero done
      nlinarith
    obtain ⟨half, halfShape⟩ := even_or_odd' quotient
    have halfSmall : half < 2 ^ bits := by omega
    have halfBelow : half * 2 ^ (level + 1) < count := by
      rcases halfShape with rfl | rfl
      · rcases shape with odd | inside
        · omega
        · nlinarith
      · nlinarith
    have halfAbove : count < (half + 1) * 2 ^ (level + 1) := by
      rcases halfShape with rfl | rfl
      · nlinarith
      · nlinarith
    obtain ⟨top, topAbove, lowest, result⟩ := ih halfSmall halfBelow.le halfAbove (.inr halfBelow)
    refine ⟨top, topAbove, Or.inr ?_, ?_⟩
    · rcases lowest with atNext | topSmall
      · rw [atNext]
        omega
      · exact topSmall
    · rw [paddedHash_succ hasher leaf halfBelow] at result
      rcases halfShape with rfl | rfl
      · have rightAbsent : paddedHash hasher leaf count level (2 * half + 1) = hasher.placeholder :=
          paddedHash_of_le_first hasher leaf above.le
        rw [computeRootLoop_even hasher (by omega), forestRoots_even, ← rightAbsent]
        exact result
      · have leftComplete :
            paddedHash hasher leaf count level (2 * half) =
              subtreeHash hasher leaf level (2 * half) :=
          paddedHash_of_stop_le hasher leaf below
        rw [forestRoots_odd, reverse_append, reverse_singleton,
          singleton_append, computeRootLoop_odd, ← leftComplete]
        exact result

/-- A single subtree covers a power of two. -/
theorem eq_two_pow_of_forestRoots_singleton {root : Hash}
    (single : forestRoots hasher leaf 0 count = [root]) :
    ∃ level, count = 2 ^ level ∧ root = subtreeHash hasher leaf level 0 := by
  have positive : count ≠ 0 := by
    rintro rfl
    simp at single
  obtain ⟨level, odd, isOdd, rfl⟩ := exists_eq_two_pow_mul_odd positive
  obtain ⟨half, rfl⟩ := isOdd
  rw [forestRoots_two_pow_mul, forestRoots_odd, zero_add] at single
  have lengths := congrArg length single
  have empty : half = 0 := by
    apply (@frozenNodes_eq_nil_iff (level + 1) half).mp
    apply length_eq_zero_iff.mp
    simpa [forestRoots] using lengths
  subst empty
  refine ⟨level, by ring, ?_⟩
  simpa using single.symm

theorem forestRoots_two_pow (level : Nat) :
    forestRoots hasher leaf 0 (2 ^ level) = [subtreeHash hasher leaf level 0] := by
  have shifted := forestRoots_two_pow_mul hasher leaf 0 level 1
  have one := forestRoots_odd hasher leaf level 0
  rw [mul_one] at shifted
  simpa [shifted] using one

/-- The root hash of a forest is the root of the padded tree. -/
theorem computeRootHash_forestRoots (fits : count < 2 ^ 64) :
    computeRootHash hasher (forestRoots hasher leaf 0 count) count =
      .ok (MerkleForest.rootHash hasher leaf count) := by
  unfold computeRootHash
  split
  · rename_i empty
    have noLeaves : count = 0 := by
      apply (@frozenNodes_eq_nil_iff 0 count).mp
      simpa [forestRoots] using empty
    subst noLeaves
    simp [MerkleForest.rootHash, paddedHash]
  · rename_i root single
    obtain ⟨level, rfl, rfl⟩ := eq_two_pow_of_forestRoots_singleton hasher leaf single
    rw [MerkleForest.rootHash, clog_pow 2 level (by decide),
      paddedHash_of_stop_le hasher leaf (by omega)]
  · rename_i notEmpty notSingle
    have positive : 0 < count := by
      apply pos_of_ne_zero
      rintro rfl
      exact notEmpty (forestRoots_zero hasher leaf 0)
    obtain ⟨zeros, odd, zerosSmall, isOdd, shape⟩ := Word64.exists_odd_part positive fits
    have quotientShape : count >>> Word64.trailingZeros count = odd := by
      rw [shape, Word64.trailingZeros_two_pow_mul isOdd zerosSmall, shiftRight_eq_div_pow,
        Nat.mul_div_cancel_left odd (Nat.two_pow_pos zeros)]
    have zerosPositive := Nat.two_pow_pos zeros
    have oddPositive : 0 < odd := by omega
    have oddSmall : odd < 2 ^ 64 := by nlinarith
    obtain ⟨top, above, lowest, result⟩ :=
      @computeRootLoop_forestRoots Hash hasher leaf count 64 zeros odd
        oddSmall (by linarith) (by nlinarith) (Or.inl isOdd)
    have startHash : paddedHash hasher leaf count zeros odd = hasher.placeholder :=
      paddedHash_of_le_first hasher leaf (by linarith)
    have startRoots : forestRoots hasher leaf zeros odd = forestRoots hasher leaf 0 count := by
      rw [shape, forestRoots_two_pow_mul, zero_add]
    rw [startHash, startRoots] at result
    have topLowest : 2 ^ top ≤ 2 * count := by
      rcases lowest with atStart | small
      · subst atStart
        nlinarith
      · exact small
    have topLevel : clog 2 count = top := by
      apply le_antisymm
      · exact clog_le_of_le_pow above.le
      · by_contra lower
        obtain ⟨previous, rfl⟩ := exists_eq_add_one.mpr (by omega : 0 < top)
        have previousCount : count = 2 ^ previous := by
          have covered : count ≤ 2 ^ previous := (clog_le_iff_le_pow (by decide)).mp (by omega)
          omega
        exact notSingle _ (previousCount ▸ forestRoots_two_pow hasher leaf previous)
    rw [quotientShape, result, MerkleForest.rootHash, topLevel]

theorem new_forestRoots (fits : count < 2 ^ 64) :
    new hasher (forestRoots hasher leaf 0 count) count = .ok (summary hasher leaf count) := by
  have lengths := @length_forestRoots Hash hasher leaf 0 count fits
  rw [new, ensure, if_pos lengths, ok_bind, computeRootHash_forestRoots hasher leaf fits]
  rfl

/-- Appending leaves to a summary gives the summary of the longer list. -/
theorem append_summary (continues : LeavesFrom leaf count leaves)
    (fits : count + leaves.length < 2 ^ 64) :
    append hasher (summary hasher leaf count) leaves =
      .ok (summary hasher leaf (count + leaves.length)) := by
  have appended := appendLoop_forestRoots hasher leaf continues fits
  simp only [append, summary, appended, ok_bind,
    reverse_reverse, new_forestRoots hasher leaf fits, unwrap]

/-- The accumulator of a list of leaves is its summary. -/
theorem fromLeaves_eq_summary (reads : LeavesFrom leaf 0 leaves) (fits : leaves.length < 2 ^ 64) :
    fromLeaves hasher leaves = .ok (summary hasher leaf leaves.length) := by
  have empty : default hasher = .ok (summary hasher leaf 0) := by
    have built := @new_forestRoots Hash hasher leaf 0 (by decide)
    rw [forestRoots_zero] at built
    rw [default, built, unwrap]
  have appended := @append_summary Hash hasher leaf 0 leaves reads (by omega)
  rw [fromLeaves, empty, ok_bind, appended, zero_add]

end Diem.InMemoryAccumulator
