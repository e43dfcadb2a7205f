import Diem.AccumulatorRefinement
import Diem.HashTree
import Diem.TransactionAccumulatorSummary

namespace Diem

open Word64 MerkleAccumulator FrozenSubtreeSiblingIterator MerkleForest.Node
open Fallible (bind_eq_ok_iff check_eq_ok_iff ensure ok_bind require)
open MerkleForest
open Position (ofNode InRange)
open List Nat

/-!
# Consistency proofs are complete and sound

The prover lists the subtrees that complete the rightmost frozen subtree again and
again, and then smaller ones; the verifier carries them into its forest in the same
order.  Soundness does not look at sizes at all: undoing the carries shows that the
verifier's roots start a cover of the target's leaves.
-/

namespace FrozenSubtreeSiblingIterator

variable {height : Nat}

theorem trailingZeros_ge {block : Nat} (positive : 0 < block) (fits : 2 ^ height * block < 2 ^ 64) :
    height ≤ trailingZeros (2 ^ height * block) := by
  have heightPositive := Nat.two_pow_pos height
  obtain ⟨zeros, odd, zerosSmall, isOdd, rfl⟩ := exists_odd_part positive (by nlinarith)
  have shape : 2 ^ height * (2 ^ zeros * odd) = 2 ^ (height + zeros) * odd := by ring
  rw [shape] at fits
  have inside : height + zeros < 64 := exponent_lt (by omega : 0 < odd) fits
  rw [shape, Word64.trailingZeros_two_pow_mul isOdd inside]
  omega

variable {remaining : Nat}

theorem nextNewLeafBatch_eq {current : Nat} (atLeast : 2 ^ height ≤ remaining)
    (below : remaining < 2 ^ (height + 1)) (heightSmall : height < 64) :
    nextNewLeafBatch ⟨current, remaining⟩ = 2 ^ height := by
  have nonzero : remaining ≠ 0 := by omega
  have log : log2 remaining = height := by
    apply le_antisymm
    · exact Nat.lt_succ_iff.mp ((Nat.log2_lt nonzero).mpr below)
    · exact (le_log2 nonzero).mpr atLeast
  have exponent : 63 - (63 - height) = height := by omega
  simp only [nextNewLeafBatch, Word64.leadingZeros, if_neg nonzero, log,
    maxAccumulatorProofDepth, exponent, one_shiftLeft]

theorem next_eq {index : Nat} (atLeast : 2 ^ height ≤ remaining)
    (size : nextSubtreeLeaves ⟨2 ^ height * index, remaining⟩ = 2 ^ height) :
    next ⟨2 ^ height * index, remaining⟩ =
      some (ofNode ⟨height, index⟩, ⟨2 ^ height * (index + 1), remaining - 2 ^ height⟩) := by
  have positive := Nat.two_pow_pos height
  have doubled : 2 ^ (height + 1) * index = 2 ^ height * index + 2 ^ height * index := by ring
  have position : 2 ^ height * index + (2 ^ height * index + 2 ^ height - 1) =
        2 ^ (height + 1) * index + (2 ^ height - 1) := by
    omega
  simp only [next]
  rw [if_neg (by omega), size, position, mul_add_one]
  rfl

/-- Below the rightmost frozen subtree the largest fitting subtree comes next. -/
theorem next_of_small {block : Nat} (atLeast : 2 ^ height ≤ remaining)
    (below : remaining < 2 ^ (height + 1)) (fits : 2 ^ height * (2 * block) + remaining < 2 ^ 63) :
    next ⟨2 ^ height * (2 * block), remaining⟩ = some (ofNode ⟨height, 2 * block⟩,
      ⟨2 ^ height * (2 * block + 1), remaining - 2 ^ height⟩) := by
  apply next_eq atLeast
  have batch : nextNewLeafBatch ⟨2 ^ height * (2 * block), remaining⟩ = 2 ^ height :=
    nextNewLeafBatch_eq atLeast below (exponent_lt Nat.one_pos (by omega))
  by_cases empty : block = 0
  · simp [nextSubtreeLeaves, empty] at batch ⊢
    exact batch
  · have seen : 2 ^ height * (2 * block) = 2 ^ (height + 1) * block := by ring
    have zeros :=
      trailingZeros_ge (pos_of_ne_zero empty) (by omega : 2 ^ (height + 1) * block < 2 ^ 64)
    have larger : 2 ^ (height + 1) ≤ 2 ^ trailingZeros (2 ^ (height + 1) * block) :=
      Nat.pow_le_pow_right (by decide) zeros
    have blockPositive : 2 ^ (height + 1) * block > 0 :=
      Nat.mul_pos (Nat.two_pow_pos _) (Nat.pos_of_ne_zero empty)
    rw [seen] at batch ⊢
    simp only [nextSubtreeLeaves, one_shiftLeft]
    rw [if_pos blockPositive, if_neg (by omega), batch]

theorem take_eq_nodesBelow {items height block remaining : Nat} (enough : height ≤ items)
    (inside : remaining < 2 ^ height) (fits : 2 ^ height * block + remaining < 2 ^ 63) :
    take items ⟨2 ^ height * block, remaining⟩ =
      (nodesBelow 0 height remaining block).map ofNode := by
  induction height generalizing items block remaining with
  | zero =>
    have empty : remaining = 0 := by omega
    subst empty
    cases items <;> simp [take, next, nodesBelow]
  | succ height ih =>
    have seen : 2 ^ (height + 1) * block = 2 ^ height * (2 * block) := by ring
    rw [nodesBelow, seen]
    rw [seen] at fits
    by_cases large : 2 ^ height ≤ remaining
    · obtain ⟨items, rfl⟩ := exists_eq_add_one.mpr (by omega : 0 < items)
      have tail := @ih items (2 * block + 1) (remaining - 2 ^ height)
        (by omega) (by omega) (by rw [mul_add_one]; omega)
      rw [if_pos large, take, next_of_small large inside fits, map_cons, zero_add]
      simp only [tail]
    · rw [if_neg large]
      exact ih (by omega) (by omega) fits

/-- While enough leaves remain, the sibling of the rightmost subtree comes next. -/
theorem next_of_large {zeros half : Nat} (atLeast : 2 ^ zeros ≤ remaining)
    (fits : 2 ^ zeros * (2 * half + 1) + remaining < 2 ^ 63) :
    next ⟨2 ^ zeros * (2 * half + 1), remaining⟩ = some (ofNode ⟨zeros, 2 * half + 1⟩,
      ⟨2 ^ zeros * (2 * half + 1 + 1), remaining - 2 ^ zeros⟩) := by
  apply next_eq atLeast
  have zerosSmall : zeros < 64 := exponent_lt Nat.one_pos (by omega)
  have positive := Nat.mul_pos (Nat.two_pow_pos zeros) (succ_pos (2 * half))
  simp only [nextSubtreeLeaves, one_shiftLeft]
  rw [if_pos positive, Word64.trailingZeros_two_pow_mul (by omega) zerosSmall, if_pos atLeast]

end FrozenSubtreeSiblingIterator

namespace InMemoryAccumulator

variable {Hash : Type} (hasher : Hasher Hash) (leaf : Nat → Hash) {count : Nat}

theorem carrySubtree_of_not {roots : List Hash} {hash : Hash} {mask : Nat}
    (noBit : ¬ count &&& mask ≠ 0) :
    carrySubtree hasher count roots hash mask = .ok (hash :: roots, mask) := by
  cases roots <;> rw [carrySubtree, if_neg noBit]

/-- Carrying a subtree into the forest of its left neighbours. -/
theorem carrySubtree_forestRoots {level index carries odd : Nat} (isOdd : odd % 2 = 1)
    (shape : index + 1 = 2 ^ carries * odd) (quotient : count / 2 ^ level = index)
    (small : level + carries < 64) :
    carrySubtree hasher count (forestRoots hasher leaf level index).reverse
        (subtreeHash hasher leaf level index) (2 ^ level) =
      .ok ((forestRoots hasher leaf level (index + 1)).reverse, 2 ^ (level + carries)) := by
  induction carries generalizing level index with
  | zero =>
    obtain ⟨half, rfl⟩ : ∃ half, index = 2 * half := ⟨index / 2, by omega⟩
    rw [carrySubtree_of_not]
    · simp [forestRoots_odd, forestRoots_even]
    · simp [and_two_pow, testBit_eq_decide_div_mod_eq, quotient]
  | succ carries ih =>
    have doubled : 2 ^ (carries + 1) * odd = 2 * (2 ^ carries * odd) := by ring
    obtain ⟨half, rfl⟩ : ∃ half, index = 2 * half + 1 := ⟨index / 2, by omega⟩
    have hasBit : count &&& 2 ^ level ≠ 0 := by
      simp [and_two_pow, testBit_eq_decide_div_mod_eq, quotient]
    have halfQuotient : count / 2 ^ (level + 1) = half := by
      rw [pow_succ, ← Nat.div_div_eq_div_mul, quotient]
      omega
    have levels : level + 1 + carries = level + (carries + 1) := by omega
    have carried := @ih (level + 1) half (by omega) halfQuotient (by omega)
    rw [levels] at carried
    have nextCount : 2 * half + 1 + 1 = 2 * (half + 1) := by ring
    rw [forestRoots_odd, nextCount, forestRoots_even, reverse_append, reverse_singleton,
      singleton_append, carrySubtree, if_pos hasBit, Position.shiftLeft_two_pow (by omega)]
    exact carried

variable {remaining : Nat}

variable {subtrees roots : List Hash} {size : Nat}

theorem combineSubtrees_of_lt (small : remaining < size) :
    combineSubtrees hasher subtrees roots count remaining size =
      .ok (roots, count, remaining, subtrees) := by
  unfold combineSubtrees
  rw [if_neg (by omega)]

theorem combineSubtrees_cons {subtree : Hash} (large : size ≤ remaining) :
    combineSubtrees hasher (subtree :: subtrees) roots count remaining size = (do
      let (roots, mask) ← carrySubtree hasher count roots subtree size
      combineSubtrees hasher subtrees roots (wrap (count + size)) (remaining - size) mask) := by
  rw [combineSubtrees, if_pos large]

/--
The verifier's loop consumes the subtrees the prover lists, and what it leaves over
completes the forest of all leaves.
-/
theorem combineSubtrees_siblings {items current zeros half : Nat}
    (shape : current = 2 ^ zeros * (2 * half + 1)) (fits : current + remaining < 2 ^ 63)
    (enough : 127 ≤ items + zeros) :
    ∃ (nodes : List MerkleForest.Node) (count left : Nat) (rest : List Hash),
      FrozenSubtreeSiblingIterator.take items ⟨current, remaining⟩ = nodes.map ofNode ∧
      (∀ node ∈ nodes, node.stop ≤ current + remaining) ∧
      combineSubtrees hasher (nodes.map (hash hasher leaf))
          (forestRoots hasher leaf 0 current).reverse current remaining (2 ^ zeros) =
        .ok ((forestRoots hasher leaf 0 count).reverse, count, left, rest) ∧
      count + left = current + remaining ∧
      forestRoots hasher leaf 0 count ++ rest =
        forestRoots hasher leaf 0 (current + remaining) := by
  have zerosSmall : zeros < 63 := exponent_lt (by omega : 0 < 2 * half + 1) (by omega)
  induction items generalizing current zeros half remaining with
  | zero => omega
  | succ items ih =>
    by_cases large : 2 ^ zeros ≤ remaining
    · have positive := Nat.two_pow_pos zeros
      obtain ⟨carries, odd, -, isOdd, halfShape⟩ := exists_odd_part (succ_pos half) (by nlinarith)
      obtain ⟨nextHalf, rfl⟩ : ∃ nextHalf, odd = 2 * nextHalf + 1 := ⟨odd / 2, by omega⟩
      have indexShape : 2 * half + 1 + 1 = 2 ^ (carries + 1) * (2 * nextHalf + 1) := by
        rw [pow_succ]
        linarith
      have nextCount : current + 2 ^ zeros = 2 ^ zeros * (2 * half + 1 + 1) := by
        rw [shape]
        ring
      have nextShape : current + 2 ^ zeros = 2 ^ (zeros + (carries + 1)) * (2 * nextHalf + 1) := by
        rw [nextCount, indexShape, pow_add 2 zeros, mul_assoc]
      have nextZeros : zeros + (carries + 1) < 63 :=
        exponent_lt (by omega : 0 < 2 * nextHalf + 1) (by omega)
      have quotient : current / 2 ^ zeros = 2 * half + 1 := by
        rw [shape, Nat.mul_div_cancel_left _ positive]
      have carried := carrySubtree_forestRoots hasher leaf isOdd indexShape quotient (by omega)
      have startRoots := forestRoots_two_pow_mul hasher leaf 0 zeros (2 * half + 1)
      have nextRoots := forestRoots_two_pow_mul hasher leaf 0 zeros (2 * half + 1 + 1)
      rw [zero_add] at startRoots nextRoots
      rw [← startRoots, ← nextRoots, ← shape, ← nextCount] at carried
      have total : current + 2 ^ zeros + (remaining - 2 ^ zeros) = current + remaining := by omega
      obtain ⟨nodes, count, left, rest, listed, stops, combined, sum, forest⟩ :=
        @ih (remaining - 2 ^ zeros) _ _ _ nextShape (by omega) (by omega) nextZeros
      rw [total] at stops sum forest
      refine ⟨⟨zeros, 2 * half + 1⟩ :: nodes, count, left, rest, ?_, ?_, ?_, sum, forest⟩
      · have step := next_of_large large (by rw [← shape]; exact fits)
        rw [← shape, ← nextCount] at step
        rw [FrozenSubtreeSiblingIterator.take, step]
        simp only [listed, map_cons]
      · intro node member
        rcases mem_cons.mp member with rfl | later
        · change (2 * half + 1 + 1) * 2 ^ zeros ≤ _
          rw [mul_comm, ← nextCount]
          omega
        · exact stops node later
      · have head :
            hash hasher leaf ⟨zeros, 2 * half + 1⟩ = subtreeHash hasher leaf zeros (2 * half + 1) :=
          rfl
        rw [map_cons, head, combineSubtrees_cons hasher large, carried, ok_bind]
        rw [wrap_eq_self (by omega)]
        exact combined
    · have inside : remaining < 2 ^ zeros := by omega
      have split := @frozenNodes_split 0 zeros (2 * half + 1) remaining inside
      have startNodes := frozenNodes_two_pow_mul 0 zeros (2 * half + 1)
      rw [← shape] at split startNodes
      refine ⟨nodesBelow 0 zeros remaining (2 * half + 1), current, remaining,
        (nodesBelow 0 zeros remaining (2 * half + 1)).map
          (hash hasher leaf), ?_, ?_, ?_, rfl, ?_⟩
      · rw [shape] at fits ⊢
        exact take_eq_nodesBelow (by omega) inside fits
      · intro node member
        have inForest : node ∈ frozenNodes 0 (current + remaining) := by
          rw [split]
          exact mem_append_right _ member
        simpa using stop_le_of_mem_frozenNodes inForest
      · exact combineSubtrees_of_lt hasher inside
      · rw [forestRoots, forestRoots, split, map_append, startNodes]

variable {accumulator : InMemoryAccumulator Hash}

/-- A summary extended by the prover's subtrees is the longer summary. -/
theorem appendSubtrees_siblings {count added : Nat} (fits : count + added < 2 ^ 63) :
    ∃ nodes : List MerkleForest.Node, toList ⟨count, added⟩ = nodes.map ofNode ∧
      (∀ node ∈ nodes, node.stop ≤ count + added) ∧
      appendSubtrees hasher (summary hasher leaf count)
          (nodes.map (hash hasher leaf)) added =
        .ok (summary hasher leaf (count + added)) := by
  have maxLeaves : maxAccumulatorLeaves = 2 ^ 63 := by decide
  have room : added ≤ Word64.sub maxAccumulatorLeaves (summary hasher leaf count).numLeaves := by
    change added ≤ Word64.sub maxAccumulatorLeaves count
    rw [maxLeaves, Word64.sub_of_le (by omega) (by decide)]
    omega
  have built := new_forestRoots hasher leaf (by omega : count + added < 2 ^ 64)
  by_cases empty : count = 0
  · subst empty
    rw [zero_add] at built ⊢
    have listed := @FrozenSubtreeSiblingIterator.take_eq_nodesBelow 128 63 0 added
      (by decide) (by omega) (by omega)
    rw [← frozenNodes_eq_nodesBelow (by omega : added < 2 ^ 63)] at listed
    refine ⟨frozenNodes 0 added, listed, ?_, ?_⟩
    · intro node member
      simpa using stop_le_of_mem_frozenNodes member
    · rw [appendSubtrees, ensure, if_pos room, ok_bind, if_pos (by rfl)]
      exact built
  · obtain ⟨zeros, odd, zerosSmall, isOdd, shape⟩ :=
      exists_odd_part (pos_of_ne_zero empty) (by omega)
    obtain ⟨half, rfl⟩ : ∃ half, odd = 2 * half + 1 := ⟨odd / 2, by omega⟩
    obtain ⟨nodes, current, left, rest, listed, stops, combined, sum, forest⟩ :=
      combineSubtrees_siblings hasher leaf shape fits (by omega : 127 ≤ 128 + zeros)
    have size : 1 <<< trailingZeros count = 2 ^ zeros := by
      rw [shape, Word64.trailingZeros_two_pow_mul isOdd zerosSmall, one_shiftLeft]
    refine ⟨nodes, listed, stops, ?_⟩
    rw [appendSubtrees, ensure, if_pos room, ok_bind, if_neg (by exact empty)]
    simp only [summary, size, combined, ok_bind, reverse_reverse]
    rw [forest, sum, wrap_eq_self (by omega)]
    exact built

section Soundness

variable {hasher} {isLeaf : Hash → Prop} {result covered : List Hash}

theorem mergeRightmost_covers {carries : Nat} (covers : Covers hasher roots.reverse covered)
    (merged : mergeRightmost hasher carries roots = .ok result) :
    Covers hasher result.reverse covered := by
  induction carries generalizing roots with
  | zero =>
    obtain rfl : roots = result := by
      simpa [mergeRightmost] using merged
    exact covers
  | succ carries ih =>
    rcases roots with _ | ⟨right, _ | ⟨left, rest⟩⟩
    · simp [mergeRightmost] at merged
    · simp [mergeRightmost] at merged
    · apply ih _ merged
      rw [reverse_cons, reverse_cons, append_assoc] at covers
      rw [reverse_cons]
      exact covers.merge

variable {leaves : List Hash}

theorem appendLoop_covers {start finish : Nat} (covers : Covers hasher roots.reverse covered)
    (appended : appendLoop hasher leaves roots start = .ok (result, finish)) :
    Covers hasher result.reverse (covered ++ leaves) ∧
      (start < 2 ^ 64 → finish = wrap (start + leaves.length)) := by
  induction leaves generalizing roots start covered with
  | nil =>
    obtain ⟨rfl, rfl⟩ : roots = result ∧ start = finish := by
      simpa [appendLoop] using appended
    constructor
    · simpa using covers
    · intro fits
      simp [wrap_eq_self fits]
  | cons leaf rest ih =>
    rw [appendLoop, bind_eq_ok_iff] at appended
    obtain ⟨next, appendedOne, appendedRest⟩ := appended
    have nextCovers : Covers hasher next.reverse (covered ++ [leaf]) := by
      apply mergeRightmost_covers _ appendedOne
      rw [reverse_cons]
      exact covers.concat leaf
    obtain ⟨restCovers, restCount⟩ := ih nextCovers appendedRest
    constructor
    · simpa using restCovers
    · intro _
      have finishEq := restCount (wrap_lt _)
      have lengths : start + 1 + rest.length = start + (rest.length + 1) := by omega
      rw [finishEq, Word64.wrap_wrap_add, lengths, length_cons]

/-- The fields of an accumulator built from given roots. -/
theorem new_eq_ok (built : new hasher roots count = .ok accumulator) :
    roots.length = countOnes count ∧ accumulator.frozenSubtreeRoots = roots ∧
      accumulator.numLeaves = count ∧
      computeRootHash hasher roots count = .ok accumulator.rootHash := by
  obtain ⟨lengths, built⟩ := check_eq_ok_iff.mp built
  obtain ⟨rootHash, computed, built⟩ := bind_eq_ok_iff.mp built
  cases built
  exact ⟨Fallible.ensure_eq_ok_iff.mp lengths, rfl, rfl, computed⟩

/-- The accumulator of a list covers the list and counts its leaves. -/
theorem fromLeaves_covers (built : fromLeaves hasher leaves = .ok accumulator) :
    Covers hasher accumulator.frozenSubtreeRoots leaves ∧
      accumulator.numLeaves = wrap leaves.length ∧
      new hasher accumulator.frozenSubtreeRoots accumulator.numLeaves = .ok accumulator := by
  have empty : default hasher = .ok ⟨[], 0, hasher.placeholder⟩ := by rfl
  rw [fromLeaves, empty, ok_bind, append, bind_eq_ok_iff] at built
  obtain ⟨⟨roots, count⟩, appended, built⟩ := built
  have built := Fallible.unwrap_eq_ok_iff.mp built
  obtain ⟨covers, counted⟩ := appendLoop_covers covers_nil appended
  obtain ⟨-, rootsEq, countEq, -⟩ := new_eq_ok built
  refine ⟨?_, ?_, ?_⟩
  · rw [rootsEq]
    simpa using covers
  · rw [countEq, counted (Nat.two_pow_pos 64), Nat.zero_add]
  · rw [rootsEq, countEq]
    exact built

section

variable (free : CollisionFree hasher isLeaf)
include free

variable {firstRoots secondRoots : List Hash}

/-- The root loop determines the roots it consumed. -/
theorem computeRootLoop_injective {bits bitmap : Nat} {first second root : Hash}
    (firstLoop : computeRootLoop hasher bits bitmap first firstRoots = .ok root)
    (secondLoop : computeRootLoop hasher bits bitmap second secondRoots = .ok root) :
    first = second ∧ firstRoots.take (countOnesFrom bits bitmap) =
      secondRoots.take (countOnesFrom bits bitmap) := by
  induction bits generalizing bitmap first second firstRoots secondRoots with
  | zero =>
    simp only [computeRootLoop, Except.ok.injEq] at firstLoop secondLoop
    exact ⟨firstLoop.trans secondLoop.symm, rfl⟩
  | succ bits ih =>
    by_cases done : bitmap = 0
    · subst done
      rw [computeRootLoop_zero, Except.ok.injEq] at firstLoop secondLoop
      have noOnes : countOnesFrom (bits + 1) 0 = 0 := by
        have zeros : ∀ width, countOnesFrom width 0 = 0 := by
          intro width
          induction width with
          | zero => rfl
          | succ width widthHypothesis => simpa [countOnesFrom] using widthHypothesis
        exact zeros _
      rw [noOnes]
      exact ⟨firstLoop.trans secondLoop.symm, rfl⟩
    · obtain ⟨half, halfShape⟩ := even_or_odd' bitmap
      rcases halfShape with rfl | rfl
      · rw [computeRootLoop_even hasher (by omega)] at firstLoop secondLoop
        obtain ⟨merged, taken⟩ := ih firstLoop secondLoop
        have ones : countOnesFrom (bits + 1) (2 * half) = countOnesFrom bits half := by
          simp [countOnesFrom]
        rw [ones]
        exact ⟨(free.injective merged).1, taken⟩
      · have ones : countOnesFrom (bits + 1) (2 * half + 1) = countOnesFrom bits half + 1 := by
          have halved : (2 * half + 1) / 2 = half := by omega
          rw [countOnesFrom, halved]
          omega
        cases firstRoots with
        | nil => simp [computeRootLoop, and_one_is_mod] at firstLoop
        | cons firstRoot firstRest =>
          cases secondRoots with
          | nil => simp [computeRootLoop, and_one_is_mod] at secondLoop
          | cons secondRoot secondRest =>
            rw [computeRootLoop_odd] at firstLoop secondLoop
            obtain ⟨merged, taken⟩ := ih firstLoop secondLoop
            obtain ⟨sameRoot, sameHash⟩ := free.injective merged
            rw [ones]
            exact ⟨sameHash, by simp [sameRoot, taken]⟩

/-- Equal root hashes over the same count come from equal roots. -/
theorem computeRootHash_injective {root : Hash} (fits : count < 2 ^ 64)
    (firstLength : firstRoots.length = countOnes count)
    (secondLength : secondRoots.length = countOnes count)
    (firstComputed : computeRootHash hasher firstRoots count = .ok root)
    (secondComputed : computeRootHash hasher secondRoots count = .ok root) :
    firstRoots = secondRoots := by
  match firstRoots, secondRoots with
  | [], [] => rfl
  | [first], [second] =>
    simp only [computeRootHash, Except.ok.injEq] at firstComputed secondComputed
    rw [firstComputed, secondComputed]
  | first :: first' :: firstRest, second :: second' :: secondRest =>
    have positive : 0 < count := by
      apply pos_of_ne_zero
      rintro rfl
      simp [countOnes, countOnesFrom] at firstLength
    obtain ⟨zeros, odd, zerosSmall, isOdd, shape⟩ := exists_odd_part positive fits
    have bitmap : count >>> trailingZeros count = odd := by
      rw [shape, Word64.trailingZeros_two_pow_mul isOdd zerosSmall, shiftRight_eq_div_pow,
        Nat.mul_div_cancel_left odd (Nat.two_pow_pos zeros)]
    have ones : countOnesFrom 64 odd = countOnes count := by
      rw [shape] at fits ⊢
      exact (Word64.countOnes_two_pow_mul fits).symm
    simp only [computeRootHash, bitmap] at firstComputed secondComputed
    obtain ⟨-, taken⟩ := computeRootLoop_injective free firstComputed secondComputed
    rw [ones, take_of_length_le, take_of_length_le] at taken
    · exact reverse_injective taken
    · rw [length_reverse, secondLength]
    · rw [length_reverse, firstLength]
  | [], _ :: _ | _ :: _, [] | [_], _ :: _ :: _ | _ :: _ :: _, [_] =>
    simp only [length_nil, length_cons] at firstLength secondLength
    omega

/-- Undoing the carries of one subtree. -/
theorem carrySubtree_uncovers {mask finalMask : Nat} {after : List Hash} {hash : Hash}
    (allLeaves : ∀ value ∈ covered, isLeaf value)
    (carried : carrySubtree hasher count roots hash mask = .ok (result, finalMask))
    (covers : Covers hasher (result.reverse ++ after) covered) :
    Covers hasher (roots.reverse ++ hash :: after) covered := by
  induction roots generalizing hash mask with
  | nil =>
    by_cases bit : count &&& mask ≠ 0
    · simp [carrySubtree, bit] at carried
    · rw [carrySubtree_of_not hasher bit] at carried
      obtain ⟨rfl, -⟩ := Prod.mk.inj (Except.ok.inj carried)
      simpa using covers
  | cons left rest ih =>
    by_cases bit : count &&& mask ≠ 0
    · rw [carrySubtree, if_pos bit] at carried
      have merged := ih carried
      rw [reverse_cons, append_assoc, singleton_append]
      exact merged.split free allLeaves
    · rw [carrySubtree_of_not hasher bit] at carried
      obtain ⟨rfl, -⟩ := Prod.mk.inj (Except.ok.inj carried)
      simpa using covers

/-- Undoing the whole loop: the old roots and the subtrees cover the leaves. -/
theorem combineSubtrees_uncovers {subtrees rest : List Hash} {size finalCount left : Nat}
    (allLeaves : ∀ value ∈ covered, isLeaf value)
    (combined : combineSubtrees hasher subtrees roots count remaining size =
      .ok (result, finalCount, left, rest))
    (covers : Covers hasher (result.reverse ++ rest) covered) :
    Covers hasher (roots.reverse ++ subtrees) covered := by
  induction subtrees generalizing roots count remaining size with
  | nil =>
    by_cases large : size ≤ remaining
    · rw [combineSubtrees, if_pos large] at combined
      cases combined
    · rw [combineSubtrees_of_lt hasher (by omega)] at combined
      obtain ⟨rfl, -, -, rfl⟩ := combined
      exact covers
  | cons subtree later ih =>
    by_cases large : size ≤ remaining
    · rw [combineSubtrees_cons hasher large, bind_eq_ok_iff] at combined
      obtain ⟨⟨carriedRoots, mask⟩, carried, combined⟩ := combined
      exact carrySubtree_uncovers free allLeaves carried (ih combined)
    · rw [combineSubtrees_of_lt hasher (by omega)] at combined
      obtain ⟨rfl, -, -, rfl⟩ := combined
      exact covers

theorem rootHash_ne_placeholder (allLeaves : ∀ value ∈ leaves, isLeaf value)
    (single : leaves.length = 1) (built : fromLeaves hasher leaves = .ok accumulator) :
    accumulator.rootHash ≠ hasher.placeholder := by
  obtain ⟨⟨trees, rootsShape, rfl⟩, counted, rebuilt⟩ := fromLeaves_covers built
  obtain ⟨lengths, -, -, computed⟩ := new_eq_ok rebuilt
  have oneRoot : trees.length = 1 := by
    rw [rootsShape, counted, single, length_map] at lengths
    exact lengths
  obtain ⟨tree, rfl⟩ := length_eq_one_iff.mp oneRoot
  rw [rootsShape] at computed
  simp only [map_cons, map_nil, computeRootHash, Except.ok.injEq] at computed
  rw [← computed]
  cases tree with
  | leaf value => exact free.leaf_ne_placeholder (allLeaves value (by simp [HashTree.leaves]))
  | node left right => exact free.placeholder_ne_internal.symm

end

/-- What a successful extension says about the roots it ends with. -/
theorem appendSubtrees_eq_ok {extended : InMemoryAccumulator Hash} {subtrees : List Hash}
    {added : Nat} (appended : appendSubtrees hasher accumulator subtrees added = .ok extended) :
    (accumulator.numLeaves = 0 ∧ new hasher subtrees added = .ok extended) ∨
    ∃ roots count left rest, combineSubtrees hasher subtrees
        accumulator.frozenSubtreeRoots.reverse accumulator.numLeaves added
        (1 <<< trailingZeros accumulator.numLeaves) =
      .ok (roots, count, left, rest) ∧
      new hasher (roots.reverse ++ rest) (wrap (count + left)) = .ok extended := by
  obtain ⟨-, appended⟩ := check_eq_ok_iff.mp appended
  by_cases empty : accumulator.numLeaves = 0
  · rw [if_pos empty] at appended
    exact .inl ⟨empty, appended⟩
  · rw [if_neg empty, bind_eq_ok_iff] at appended
    obtain ⟨⟨roots, count, left, rest⟩, combined, built⟩ := appended
    exact .inr ⟨roots, count, left, rest, combined, built⟩

end Soundness

end InMemoryAccumulator

namespace MerkleAccumulator

variable {Hash : Type} (hasher : Hasher Hash)

/-- The prover's subtrees are read from storage and accepted by the verifier. -/
theorem getConsistencyProof_complete {reader : HashReader Hash} {leaf : Nat → Hash} {full sub : Nat}
    (holds : Holds hasher leaf reader full) (ordered : sub ≤ full) (small : full < 2 ^ 63) :
    ∃ subtrees, getConsistencyProof reader full sub = .ok subtrees ∧
      InMemoryAccumulator.appendSubtrees hasher
          (.summary hasher leaf sub) subtrees
          (full - sub) =
        .ok (InMemoryAccumulator.summary hasher leaf full) := by
  have total : sub + (full - sub) = full := by omega
  obtain ⟨nodes, listed, stops, appended⟩ :=
    @InMemoryAccumulator.appendSubtrees_siblings Hash hasher leaf sub (full - sub) (by omega)
  rw [total] at stops appended
  have known : ∀ node ∈ nodes, (reader ∘ ofNode) node = .ok (node.hash hasher leaf) :=
    fun node member => holds node (stops node member)
  have maxLeaves : full ≤ maxAccumulatorLeaves := by
    have shape : maxAccumulatorLeaves = 2 ^ 63 := by decide
    omega
  refine ⟨nodes.map (hash hasher leaf), ?_, appended⟩
  rw [getConsistencyProof, ensure, if_pos ordered, new, require, if_pos maxLeaves,
    require, if_pos ordered]
  simp only [ok_bind, pure, Except.pure]
  rw [listed, mapM_map, mapM_eq_ok known]

end MerkleAccumulator

namespace TransactionAccumulatorSummary

open InMemoryAccumulator

variable {summary extended : TransactionAccumulatorSummary}
  {proof : AccumulatorConsistencyProof} {target : LedgerInfo}
  {hasher : Hasher HashValue}

theorem tryExtendWithProof_eq_ok
    (accepted : tryExtendWithProof hasher summary proof target = .ok extended) :
    summary.version ≤ target.version ∧
      summary.accumulator.appendSubtrees hasher proof.subtrees (target.version - summary.version) =
        .ok extended.accumulator ∧
      target.version = extended.version ∧
      target.transactionAccumulatorHash = extended.rootHash := by
  obtain ⟨newer, accepted⟩ := check_eq_ok_iff.mp accepted
  obtain ⟨accumulator, appended, accepted⟩ := bind_eq_ok_iff.mp accepted
  obtain ⟨verified, accepted⟩ := check_eq_ok_iff.mp accepted
  cases accepted
  have consistent : verifyConsistency { accumulator } target = .ok () := by
    cases result : verifyConsistency { accumulator } target with
    | ok value => rfl
    | error failure => cases failure <;> simp [result, withContext] at verified
  obtain ⟨sameVersion, sameRoot⟩ := check_eq_ok_iff.mp consistent
  exact ⟨Fallible.ensure_eq_ok_iff.mp newer, appended, Fallible.ensure_eq_ok_iff.mp sameVersion,
    Fallible.ensure_eq_ok_iff.mp sameRoot⟩

section

variable {isLeaf : HashValue → Prop} {newLeaves : List HashValue}
  {new : InMemoryAccumulator HashValue} (free : CollisionFree hasher isLeaf)
  (newAreLeaves : ∀ value ∈ newLeaves, isLeaf value)
  (newBuilt : fromLeaves hasher newLeaves = .ok new)
  (targetRoot : target.transactionAccumulatorHash = new.rootHash)
  (targetVersion : newLeaves.length = target.version + 1)
  (accepted : tryExtendWithProof hasher summary proof target = .ok extended)
include free newAreLeaves newBuilt targetRoot targetVersion accepted

/--
An accepted extension ends in the accumulator of the target's leaves, which the old
roots and the subtrees cover together.  Nothing is assumed of the old summary.
-/
theorem tryExtendWithProof_target :
    extended.accumulator = new ∧ new.numLeaves = target.version + 1 ∧
      Covers hasher (summary.accumulator.frozenSubtreeRoots ++ proof.subtrees)
        newLeaves := by
  obtain ⟨newer, appended, sameVersion, sameRoot⟩ := tryExtendWithProof_eq_ok accepted
  obtain ⟨newCovers, newCount, newNew⟩ := fromLeaves_covers newBuilt
  obtain ⟨newLength, -, -, newComputed⟩ := new_eq_ok newNew
  have rootsEqual : extended.accumulator.rootHash = new.rootHash := sameRoot.symm.trans targetRoot
  have versionShape : extended.version =
        if extended.accumulator.numLeaves = 0 then 0
        else extended.accumulator.numLeaves - 1 :=
    rfl
  have notEmpty : ∀ {roots : List HashValue} {count : Nat},
        InMemoryAccumulator.new hasher roots count = .ok extended.accumulator →
        count ≠ 0 := by
    intro roots count built isZero
    subst isZero
    obtain ⟨lengths, -, counted, computed⟩ := new_eq_ok built
    have noRoots : roots = [] := length_eq_zero_iff.mp lengths
    subst noRoots
    have placeholderRoot : hasher.placeholder = extended.accumulator.rootHash :=
      Except.ok.inj computed
    have single : newLeaves.length = 1 := by
      rw [counted, if_pos rfl] at versionShape
      omega
    exact
      rootHash_ne_placeholder free newAreLeaves single newBuilt
        (rootsEqual.symm.trans placeholderRoot.symm)
  rcases appendSubtrees_eq_ok appended with
    ⟨empty, built⟩ | ⟨roots, count, left, rest, combined, built⟩
  · obtain ⟨-, -, counted, -⟩ := new_eq_ok built
    have summaryVersion : summary.version = 0 := by
      simp [TransactionAccumulatorSummary.version, InMemoryAccumulator.version, empty]
    rw [summaryVersion, Nat.sub_zero] at counted
    have positive := notEmpty built
    rw [summaryVersion, Nat.sub_zero] at positive
    rw [counted, if_neg positive] at versionShape
    omega
  · obtain ⟨lengths, extendedRoots, counted, computed⟩ := new_eq_ok built
    have positive := notEmpty built
    have fits := wrap_lt (count + left)
    rw [counted, if_neg positive] at versionShape
    have sameCount : new.numLeaves = wrap (count + left) := by
      rw [newCount, targetVersion, sameVersion, versionShape,
        Nat.sub_add_cancel (Nat.pos_of_ne_zero positive), wrap_eq_self fits]
    rw [sameCount] at newLength newComputed
    rw [rootsEqual] at computed
    have sameRoots := computeRootHash_injective free fits lengths newLength computed newComputed
    have accumulators : extended.accumulator = new := by
      obtain ⟨⟨rootsField, countField, hashField⟩⟩ := extended
      obtain ⟨newRootsField, newCountField, newHashField⟩ := new
      simp only [InMemoryAccumulator.mk.injEq]
      exact ⟨extendedRoots.trans sameRoots, counted.trans sameCount.symm, rootsEqual⟩
    have covers : Covers hasher (roots.reverse ++ rest) newLeaves := by
      rw [sameRoots]
      exact newCovers
    have uncovered := combineSubtrees_uncovers free newAreLeaves combined covers
    rw [reverse_reverse] at uncovered
    exact ⟨accumulators, by omega, uncovered⟩

/--
An accepted extension of a summary of some leaves ends in the accumulator of the
target's leaves, and the old leaves are a prefix of them.
-/
theorem tryExtendWithProof_sound {oldLeaves : List HashValue}
    {old : InMemoryAccumulator HashValue} (oldAreLeaves : ∀ value ∈ oldLeaves, isLeaf value)
    (oldBuilt : fromLeaves hasher oldLeaves = .ok old)
    (summaryRoots : summary.accumulator.frozenSubtreeRoots = old.frozenSubtreeRoots) :
    oldLeaves <+: newLeaves ∧ extended.accumulator = new := by
  obtain ⟨oldCovers, -, -⟩ := fromLeaves_covers oldBuilt
  obtain ⟨accumulators, -, covers⟩ :=
    tryExtendWithProof_target free newAreLeaves newBuilt targetRoot targetVersion accepted
  rw [summaryRoots] at covers
  exact ⟨oldCovers.starts_total free oldAreLeaves newAreLeaves covers, accumulators⟩

end

/--
The proof storage gives out for a shorter prefix of its leaves extends the prefix's
accumulator to the accumulator of all leaves.
-/
def ProofCompletes (hasher : Hasher HashValue) (batches : List (List HashValue))
    (sub : Nat) : Prop :=
  ∃ nodes subtrees subAccumulator full, appendBatches hasher batches 0 [] = .ok nodes ∧
    getConsistencyProof (readerOf nodes) batches.flatten.length sub = .ok subtrees ∧
    fromLeaves hasher (batches.flatten.take sub) = .ok subAccumulator ∧
    fromLeaves hasher batches.flatten = .ok full ∧
    appendSubtrees hasher subAccumulator subtrees (batches.flatten.length - sub) = .ok full

/--
Consistency proofs are complete, whatever batches storage was fed with; and with a
collision-free hasher they are sound, whatever subtrees a prover sends.
-/
theorem consistencyProofs_complete_and_sound (hasher : Hasher HashValue) :
    (∀ (batches : List (List HashValue)) (sub : Nat), batches.flatten.length ≤ 2 ^ 63 - 1 →
      sub ≤ batches.flatten.length →
      ProofCompletes hasher batches sub) ∧
    (∀ (isLeaf : HashValue → Prop) (summary extended : TransactionAccumulatorSummary)
        (proof : AccumulatorConsistencyProof)
        (target : LedgerInfo)
        (oldLeaves newLeaves : List HashValue)
        (old new : InMemoryAccumulator HashValue),
      CollisionFree hasher isLeaf →
      (∀ value ∈ oldLeaves, isLeaf value) →
      (∀ value ∈ newLeaves, isLeaf value) →
      fromLeaves hasher oldLeaves = .ok old →
      fromLeaves hasher newLeaves = .ok new →
      summary.accumulator.frozenSubtreeRoots = old.frozenSubtreeRoots →
      target.transactionAccumulatorHash = new.rootHash →
      newLeaves.length = target.version + 1 →
      tryExtendWithProof hasher summary proof target = .ok extended →
      oldLeaves <+: newLeaves ∧ extended.accumulator = new) := by
  constructor
  · intro batches sub bounded ordered
    have reads := leavesFrom_leafAt hasher batches.flatten
    generalize leafAt hasher batches.flatten = leaf at reads
    have fed := @MerkleAccumulator.appendBatches_eq HashValue hasher leaf batches 0 reads (by omega)
    rw [zero_add] at fed
    have holds := holds_readerOf hasher leaf (by omega : batches.flatten.length < 2 ^ 63)
    obtain ⟨subtrees, proved, appended⟩ :=
      getConsistencyProof_complete hasher holds ordered (by omega)
    have subReads : LeavesFrom leaf 0 (batches.flatten.take sub) := by
      rw [← take_append_drop sub batches.flatten, leavesFrom_append] at reads
      exact reads.1
    have subLength : (batches.flatten.take sub).length = sub := by
      rw [length_take]
      omega
    have subBuilt := fromLeaves_eq_summary hasher leaf subReads (by omega)
    rw [subLength] at subBuilt
    exact ⟨_, subtrees, _, _, fed, proved, subBuilt,
      fromLeaves_eq_summary hasher leaf reads (by omega), appended⟩
  · intro isLeaf summary extended proof target oldLeaves newLeaves old new
      free oldAreLeaves newAreLeaves oldBuilt newBuilt summaryRoots targetRoot
      targetVersion accepted
    exact
      tryExtendWithProof_sound free newAreLeaves newBuilt targetRoot targetVersion accepted
        oldAreLeaves oldBuilt summaryRoots

/-- A hasher that keeps both children. -/
def pairHasher : Hasher HashValue where
  internal := .pair
  placeholder := .accumulatorPlaceholderHash

theorem pairHasher_collisionFree :
    CollisionFree pairHasher fun value => ∃ number, value = .atom (number + 2)
    where
  injective same := HashValue.pair.inj same
  leaf_ne_internal := by
    rintro value left right ⟨number, rfl⟩
    exact HashValue.noConfusion
  leaf_ne_placeholder := by
    rintro value ⟨number, rfl⟩ same
    cases same
  placeholder_ne_internal := by
    intro left right
    exact HashValue.noConfusion

def oneLeafSummary : TransactionAccumulatorSummary where
  accumulator := ⟨[.atom 2], 1, .atom 2⟩

/-- A ledger info over two leaves. -/
def twoLeafLedgerInfo : LedgerInfo where
  commitInfo :=
    { BlockInfo.empty with
      executedStateId := .pair (.atom 2) (.atom 3)
      version := 1 }
  consensusDataHash := .zero

/-- Extending one leaf to three, and a summary of one leaf to two. -/
theorem consistencyProofs_two_leaves :
    ProofCompletes pairHasher [[.atom 2], [.atom 3, .atom 4]] 1 ∧
    ∃ extended,
      tryExtendWithProof pairHasher oneLeafSummary ⟨[.atom 3]⟩ twoLeafLedgerInfo = .ok extended ∧
      [HashValue.atom 2] <+: [.atom 2, .atom 3] ∧
      extended.accumulator = ⟨[.pair (.atom 2) (.atom 3)], 2, .pair (.atom 2) (.atom 3)⟩ := by
  have both := consistencyProofs_complete_and_sound pairHasher
  refine ⟨both.1 _ 1 (by decide) (by decide), ?_⟩
  refine ⟨⟨⟨[.pair (.atom 2) (.atom 3)], 2, .pair (.atom 2) (.atom 3)⟩⟩, rfl, ?_⟩
  exact
    both.2 _ oneLeafSummary _ ⟨[.atom 3]⟩ twoLeafLedgerInfo [.atom 2]
      [.atom 2, .atom 3] ⟨[.atom 2], 1, .atom 2⟩ _ pairHasher_collisionFree
      (by simp) (by simp) rfl rfl rfl rfl rfl rfl

end TransactionAccumulatorSummary

end Diem
