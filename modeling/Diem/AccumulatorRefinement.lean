import Diem.MerkleAccumulatorSpec

namespace Diem.MerkleAccumulator

open MerkleForest
open Position (ofNode InRange)
open InMemoryAccumulator (LeavesFrom forestRoots summary)
open Word64 List Nat

/-!
# The storage accumulator refines the in-memory one

Feeding batches to the storage accumulator freezes every subtree once, in
post-order, so storage always holds exactly the subtrees over the leaves so far.
Root hashes and frozen subtree roots then agree with the in-memory accumulator
after every batch.
-/

section Order

variable {node : Node}

theorem stop_of_mem_carriedNodes {level index carries odd : Nat}
    (shape : index + 1 = 2 ^ carries * odd) (member : node ∈ carriedNodes level index carries) :
    node.stop = (index + 1) * 2 ^ level := by
  induction carries generalizing level index with
  | zero => simp [carriedNodes] at member
  | succ carries ih =>
    have doubled : 2 ^ (carries + 1) * odd = 2 * (2 ^ carries * odd) := by ring
    have halfShape : index / 2 + 1 = 2 ^ carries * odd := by omega
    have stops : (index / 2 + 1) * 2 ^ (level + 1) = (index + 1) * 2 ^ level := by
      have pair : index + 1 = (index / 2 + 1) * 2 := by omega
      rw [pair]
      ring
    rw [carriedNodes, mem_cons] at member
    rcases member with rfl | later
    · exact stops
    · rw [ih halfShape later, stops]

theorem mem_carriedNodes {level index carries distance : Nat} (near : distance < carries) :
    ⟨level + (distance + 1), index / 2 ^ (distance + 1)⟩ ∈
      carriedNodes level index carries := by
  induction distance generalizing level index carries with
  | zero =>
    obtain ⟨carries, rfl⟩ := exists_eq_add_one.mpr near
    simp [carriedNodes]
  | succ distance ih =>
    obtain ⟨carries, rfl⟩ := exists_eq_add_one.mpr (by omega : 0 < carries)
    have member := @ih (level + 1) (index / 2) carries (by omega)
    have levels : level + 1 + (distance + 1) = level + (distance + 1 + 1) := by omega
    rw [Nat.div_div_eq_div_mul, ← pow_succ', levels] at member
    exact mem_cons_of_mem _ member

theorem stop_of_mem_frozenWith {leafIndex : Nat} (small : leafIndex + 1 < 2 ^ 64)
    (member : node ∈ frozenWith leafIndex) : node.stop = leafIndex + 1 := by
  obtain ⟨ones, odd, -, isOdd, shape⟩ := exists_odd_part (succ_pos leafIndex) small
  rw [frozenWith, trailingZeros_complement isOdd shape small, mem_cons] at member
  rcases member with rfl | carried
  · simp [Node.stop]
  · simpa using stop_of_mem_carriedNodes shape carried

variable {count : Nat}

theorem stop_le_of_mem_frozenRange (small : count < 2 ^ 64) (member : node ∈ frozenRange 0 count) :
    node.stop ≤ count := by
  obtain ⟨leafIndex, inRange, frozen⟩ := mem_flatMap.mp member
  have inside : leafIndex < count := by simpa using inRange
  rw [stop_of_mem_frozenWith (by omega) frozen]
  exact inside

/-- Every subtree over the leaves so far has been frozen. -/
theorem mem_frozenRange (small : count < 2 ^ 64) (complete : node.stop ≤ count) :
    node ∈ frozenRange 0 count := by
  obtain ⟨level, index⟩ := node
  have stopPositive : 0 < (index + 1) * 2 ^ level :=
    Nat.mul_pos (Nat.succ_pos _) (Nat.two_pow_pos _)
  obtain ⟨leafIndex, leafShape⟩ := exists_eq_add_one.mpr stopPositive
  have inside : leafIndex < count := by
    change (index + 1) * 2 ^ level ≤ count at complete
    omega
  have indexSmall : index + 1 < 2 ^ 64 := by nlinarith [Nat.two_pow_pos level]
  obtain ⟨zeros, odd, -, isOdd, shape⟩ := exists_odd_part (succ_pos index) indexSmall
  have indexShape : index + 1 = 2 ^ zeros * odd := shape
  have carryShape : leafIndex + 1 = 2 ^ (level + zeros) * odd := by
    rw [← leafShape, indexShape]
    ring
  have quotient : leafIndex / 2 ^ level = index := by
    apply Nat.div_eq_of_lt_le
    · have expanded : (index + 1) * 2 ^ level = index * 2 ^ level + 2 ^ level := by ring
      have positive := Nat.two_pow_pos level
      omega
    · omega
  apply mem_flatMap.mpr
  refine ⟨leafIndex, by simpa using inside, ?_⟩
  rw [frozenWith, trailingZeros_complement isOdd carryShape (by omega)]
  cases level with
  | zero =>
    have sameIndex : leafIndex = index := by simpa using quotient
    rw [sameIndex]
    exact mem_cons_self
  | succ level =>
    have member := @mem_carriedNodes 0 leafIndex (level + 1 + zeros) level (by omega)
    rw [quotient, zero_add] at member
    exact mem_cons_of_mem _ member

theorem ofNode_injective {first second : Node} (firstInRange : InRange first)
    (secondInRange : InRange second) (samePosition : ofNode first = ofNode second) :
    first = second := by
  have levels : first.level = second.level := by
    rw [← Position.level_ofNode firstInRange, ← Position.level_ofNode secondInRange, samePosition]
  obtain ⟨level, firstIndex⟩ := first
  obtain ⟨level', secondIndex⟩ := second
  obtain rfl : level = level' := levels
  have indices : 2 ^ (level + 1) * firstIndex + (2 ^ level - 1) =
        2 ^ (level + 1) * secondIndex + (2 ^ level - 1) :=
    congrArg Position.index samePosition
  have cancelled : 2 ^ (level + 1) * firstIndex = 2 ^ (level + 1) * secondIndex := by omega
  rw [Nat.eq_of_mul_eq_mul_left (Nat.two_pow_pos _) cancelled]

theorem inRange_of_stop_le (small : count < 2 ^ 63) (complete : node.stop ≤ count) :
    InRange node := by
  change 2 * node.stop ≤ 2 ^ 64
  omega

/-- The nodes of one leaf have consecutive post-order numbers. -/
theorem postorder_carriedNodes {level index carries odd : Nat}
    (shape : index + 1 = 2 ^ carries * odd) (small : (index + 1) * 2 ^ level < 2 ^ 63) :
    ((⟨level, index⟩ :: carriedNodes level index carries).map
        fun node => (ofNode node).toPostorderIndex) =
      range' (ofNode ⟨level, index⟩).toPostorderIndex (carries + 1) := by
  induction carries generalizing level index with
  | zero => simp [carriedNodes]
  | succ carries ih =>
    have doubled : 2 ^ (carries + 1) * odd = 2 * (2 ^ carries * odd) := by ring
    obtain ⟨half, rfl⟩ : ∃ half, index = 2 * half + 1 := ⟨index / 2, by omega⟩
    have halved : (2 * half + 1) / 2 = half := by omega
    have stops : (half + 1) * 2 ^ (level + 1) = (2 * half + 1 + 1) * 2 ^ level := by ring
    have parents := @ih (level + 1) half (by omega) (by omega)
    have here := @Position.toPostorderIndex_ofNode level (2 * half + 1)
      (inRange_of_stop_le small (le_refl _))
    have above := @Position.toPostorderIndex_ofNode (level + 1) half
      (inRange_of_stop_le small stops.le)
    have onesFit : 2 * half + 1 < 2 ^ 64 := by nlinarith [Nat.two_pow_pos level]
    rw [countOnes_two_mul_add_one onesFit] at here
    have consecutive : (ofNode ⟨level + 1, half⟩).toPostorderIndex =
          (ofNode ⟨level, 2 * half + 1⟩).toPostorderIndex + 1 := by
      omega
    rw [carriedNodes, halved, map_cons, parents, consecutive]
    exact range'_succ.symm

theorem frozenRange_succ (count : Nat) :
    frozenRange 0 (count + 1) = frozenRange 0 count ++ frozenWith count := by
  simp [frozenRange, range'_concat]

/-- The number of nodes frozen with the first `count` leaves. -/
def frozenCount (count : Nat) : Nat :=
  2 * count - countOnes count

/-- All nodes frozen so far are numbered in post-order without gap. -/
theorem postorder_frozenRange (small : count < 2 ^ 63) :
    ((frozenRange 0 count).map fun node => (ofNode node).toPostorderIndex) =
      range (frozenCount count) := by
  induction count with
  | zero => rfl
  | succ count ih =>
    obtain ⟨ones, odd, -, isOdd, shape⟩ := exists_odd_part (succ_pos count) (by omega)
    have onesStep := countOnes_succ isOdd shape (by omega)
    have first := @Position.toPostorderIndex_ofNode 0 count
      (inRange_of_stop_le (by omega : count + 1 < 2 ^ 63) (by simp [Node.stop]))
    have start : (ofNode ⟨0, count⟩).toPostorderIndex = frozenCount count := by
      rw [frozenCount]
      omega
    have length : frozenCount (count + 1) = frozenCount count + (ones + 1) := by
      rw [frozenCount, frozenCount]
      omega
    rw [frozenRange_succ, map_append, ih (by omega), frozenWith,
      trailingZeros_complement isOdd shape (by omega),
      postorder_carriedNodes shape (by simpa using small), start,
      length, range_eq_range', range_eq_range']
    have joined := @range'_append_1 0 (frozenCount count) (ones + 1)
    rwa [zero_add] at joined

end Order

variable {Hash : Type} (hasher : Hasher Hash) (leaf : Nat → Hash)

theorem readerOf_stored {nodes : List Node} {node : Node}
    (allInRange : ∀ other ∈ nodes, InRange other) (member : node ∈ nodes) :
    readerOf (nodes.map (stored hasher leaf)) (ofNode node) = .ok (node.hash hasher leaf) := by
  induction nodes with
  | nil => simp at member
  | cons first rest ih =>
    by_cases found : ofNode first = ofNode node
    · have same : first = node :=
        ofNode_injective (allInRange first mem_cons_self) (allInRange node member) found
      simp [readerOf, stored, same]
    · have inRest : node ∈ rest := by
        rcases mem_cons.mp member with rfl | later
        · exact (found rfl).elim
        · exact later
      have read := ih (fun other inside => allInRange other (mem_cons_of_mem _ inside)) inRest
      rw [readerOf] at read ⊢
      rw [map_cons, find?_cons_of_neg]
      · exact read
      · intro same
        exact found (of_decide_eq_true same)

/-- Storage with the nodes frozen so far holds every subtree. -/
theorem holds_readerOf {count : Nat} (small : count < 2 ^ 63) :
    Holds hasher leaf (readerOf ((frozenRange 0 count).map (stored hasher leaf))) count := by
  intro node complete
  apply readerOf_stored
  · intro other member
    exact inRange_of_stop_le small (stop_le_of_mem_frozenRange (by omega) member)
  · exact mem_frozenRange (by omega) complete

theorem frozenRange_append (first second : Nat) :
    frozenRange 0 (first + second) = frozenRange 0 first ++ frozenRange first second := by
  have ranges := @range'_append_1 0 first second
  rw [zero_add] at ranges
  rw [frozenRange, ← ranges, flatMap_append]
  rfl

theorem leavesFrom_append {first : Nat} {left right : List Hash} :
    LeavesFrom leaf first (left ++ right) ↔
      LeavesFrom leaf first left ∧ LeavesFrom leaf (first + left.length) right := by
  constructor
  · intro reads
    constructor
    · intro offset inside
      have here := reads offset (by rw [length_append]; omega)
      simpa [getElem_append_left inside] using here
    · intro offset inside
      have here := reads (left.length + offset) (by rw [length_append]; omega)
      simpa [add_assoc] using here
  · intro ⟨readsLeft, readsRight⟩ offset inside
    by_cases early : offset < left.length
    · have here := readsLeft offset early
      simpa [getElem_append_left early] using here
    · rw [length_append] at inside
      have here := readsRight (offset - left.length) (by omega)
      have position : first + left.length + (offset - left.length) = first + offset := by omega
      rw [position] at here
      simpa [getElem_append_right (by omega : left.length ≤ offset)] using here

/-- Feeding batches freezes the nodes of all their leaves. -/
theorem appendBatches_eq {batches : List (List Hash)} {first : Nat}
    (reads : LeavesFrom leaf first batches.flatten)
    (small : first + batches.flatten.length < 2 ^ 63) :
    appendBatches hasher batches first ((frozenRange 0 first).map (stored hasher leaf)) =
      .ok ((frozenRange 0 (first + batches.flatten.length)).map (stored hasher leaf)) := by
  induction batches generalizing first with
  | nil => simp [appendBatches]
  | cons batch rest ih =>
    rw [flatten_cons] at reads small ⊢
    rw [length_append] at small ⊢
    obtain ⟨readsBatch, readsRest⟩ := (leavesFrom_append leaf).mp reads
    have appended := append_eq hasher leaf (holds_readerOf hasher leaf (by omega : first < 2 ^ 63))
      readsBatch (by omega)
    have remaining := ih readsRest (by omega)
    rw [appendBatches, appended, Fallible.ok_bind]
    rw [frozenRange_append, map_append] at remaining
    rw [← add_assoc]
    exact remaining

theorem mapM_eq_ok {Source : Type} {items : List Source} {read : Source → Fallible Hash}
    {value : Source → Hash} (known : ∀ item ∈ items, read item = .ok (value item)) :
    items.mapM read = .ok (items.map value) := by
  induction items with
  | nil => rfl
  | cons item rest ih =>
    have tail := ih (fun other inside => known other (mem_cons_of_mem _ inside))
    rw [mapM_cons, known item mem_cons_self, Fallible.ok_bind, tail]
    rfl

/-- The frozen subtree roots read back from storage. -/
theorem getFrozenSubtreeHashes_eq {reader : HashReader Hash} {count : Nat}
    (holds : Holds hasher leaf reader count) (small : count < 2 ^ 63) :
    getFrozenSubtreeHashes reader count = .ok (forestRoots hasher leaf 0 count) := by
  have known :
      ∀ node ∈ frozenNodes 0 count, (reader ∘ ofNode) node = .ok (node.hash hasher leaf) := by
    intro node member
    have stop := stop_le_of_mem_frozenNodes member
    exact holds node (by simpa using stop)
  rw [getFrozenSubtreeHashes, FrozenSubTreeIterator.toList_new small, mapM_map, mapM_eq_ok known]
  rfl

/-- The leaves of a list, continued arbitrarily. -/
def leafAt (hasher : Hasher Hash) (leaves : List Hash) (index : Nat) : Hash :=
  leaves.getD index hasher.placeholder

theorem leavesFrom_leafAt (leaves : List Hash) : LeavesFrom (leafAt hasher leaves) 0 leaves := by
  intro offset inside
  simp [leafAt, inside]

/--
What the storage accumulator and the in-memory accumulator of all leaves so far
agree on after a batch: the returned root hash, the root hash read back and the
frozen subtree roots are the same, and the nodes frozen over all batches are
numbered `0, 1, 2, ...` in post-order.  Storage answers a read of a node that is not
frozen with an error, which every caller passes on, so none of these calls makes
one.
-/
def AgreesAfter (hasher : Hasher Hash) (batches : List (List Hash)) (batch : List Hash) : Prop :=
  ∃ nodes root toFreeze accumulator, appendBatches hasher batches 0 [] = .ok nodes ∧
    append hasher (readerOf nodes) batches.flatten.length batch = .ok (root, toFreeze) ∧
    InMemoryAccumulator.fromLeaves hasher (batches.flatten ++ batch) = .ok accumulator ∧
    root = accumulator.rootHash ∧
    (batches.flatten ++ batch ≠ [] →
      getRootHash hasher (readerOf (nodes ++ toFreeze)) (batches.flatten ++ batch).length =
        .ok root) ∧
    getFrozenSubtreeHashes (readerOf (nodes ++ toFreeze)) (batches.flatten ++ batch).length =
      .ok accumulator.frozenSubtreeRoots ∧
    (nodes ++ toFreeze).map (fun node => node.1.toPostorderIndex) = range (nodes ++ toFreeze).length

/--
For every list of leaves and every way to split it into batches, the storage
accumulator agrees with the in-memory accumulator after each batch.
-/
theorem append_agrees_with_fromLeaves
    (batches : List (List Hash))
    (batch : List Hash)
    (bounded : (batches.flatten ++ batch).length ≤ 2 ^ 63 - 1) :
    AgreesAfter hasher batches batch := by
  have reads := leavesFrom_leafAt hasher (batches.flatten ++ batch)
  generalize leafAt hasher (batches.flatten ++ batch) = leaf at reads
  have built := InMemoryAccumulator.fromLeaves_eq_summary hasher leaf reads (by omega)
  obtain ⟨readsBatches, readsBatch⟩ := (leavesFrom_append leaf).mp reads
  rw [zero_add] at readsBatch
  rw [length_append] at bounded
  have fed := @appendBatches_eq Hash hasher leaf batches 0 readsBatches (by omega)
  rw [zero_add] at fed
  have appended :=
    append_eq hasher leaf (holds_readerOf hasher leaf (by omega : batches.flatten.length < 2 ^ 63))
      readsBatch (by omega)
  have holds :=
    holds_readerOf hasher leaf (by omega : batches.flatten.length + batch.length < 2 ^ 63)
  have postorder :=
    postorder_frozenRange (by omega : batches.flatten.length + batch.length < 2 ^ 63)
  rw [frozenRange_append, map_append] at holds postorder
  refine ⟨_, _, _, _, fed, appended, built, ?_, ?_, ?_, ?_⟩
  · rw [length_append]
    rfl
  · intro notEmpty
    have positive := length_pos_of_ne_nil notEmpty
    rw [length_append] at positive ⊢
    exact getRootHash_eq hasher leaf holds positive (by omega)
  · rw [length_append]
    exact getFrozenSubtreeHashes_eq hasher leaf holds (by omega)
  · have lengths := congrArg length postorder
    simp only [length_append, length_map, length_range] at lengths
    rw [map_append, map_map, map_map, length_append, length_map, length_map, lengths, ← postorder]
    rfl

/-- A hasher that keeps the shape of the tree readable in decimal digits. -/
def decimalHasher : Hasher Nat where
  internal left right := 100 * left + right + 10000
  placeholder := 0

/-- Five leaves fed in batches of two, none, one and two. -/
theorem append_agrees_with_fromLeaves_five :
    AgreesAfter decimalHasher [[1, 2], [], [3]] [4, 5] :=
  append_agrees_with_fromLeaves decimalHasher [[1, 2], [], [3]] [4, 5] (by decide)

end Diem.MerkleAccumulator
