import Diem.MoveRuntime
import Mathlib.Data.List.GetD

namespace Diem

open Move List

/-!
# Bit vectors of the Move standard library

`move-stdlib/sources/BitVector.move`: a vector of booleans of a fixed length.  The loops
are folds over the indices that they visit; reading outside the vector gives zero in
the specifications, so that a shift to the left is a shift of the index.
-/

/-- A fixed number of bits. -/
structure BitVector where
  length : Nat
  bitField : List Bool
  sized : bitField.length = length
  deriving DecidableEq

namespace BitVector

variable (bitvector : BitVector)

/-- A bit of the vector; there are only zeros outside of it. -/
def get (index : Nat) : Bool :=
  bitvector.bitField.getD index false

/-- The abort for an index outside of the vector. -/
def indexAbort : MoveAbort :=
  .abort .bitVector .invalidArgument 0

/-- The abort for a length that is not supported. -/
def lengthAbort : MoveAbort :=
  .abort .bitVector .invalidArgument 1

/-- The vector is shorter than this. -/
def maxSize : Nat := 1024

/-- A vector of unset bits. -/
def new (length : Nat) : Move BitVector := do
  assert (0 < length) lengthAbort
  assert (length < maxSize) lengthAbort
  return ⟨length, replicate length false, length_replicate⟩

/-- Change one bit. -/
def write (bitIndex : Nat) (bit : Bool) : Move BitVector := do
  assert (bitIndex < bitvector.bitField.length) indexAbort
  return ⟨bitvector.length, bitvector.bitField.set bitIndex bit, length_set.trans bitvector.sized⟩

def set (bitIndex : Nat) : Move BitVector :=
  bitvector.write bitIndex true

def unset (bitIndex : Nat) : Move BitVector :=
  bitvector.write bitIndex false

/-- Whether a bit is set. -/
def isIndexSet (bitIndex : Nat) : Move Bool := do
  assert (bitIndex < bitvector.bitField.length) indexAbort
  return bitvector.get bitIndex

/-- Move one bit to the left. -/
def moveBit (amount : Nat) (bitvector : BitVector) (index : Nat) : Move BitVector := do
  if ← bitvector.isIndexSet index then
    bitvector.set (index - amount)
  else
    bitvector.unset (index - amount)

/-- Shift to the left, which drops the first bits. -/
def shiftLeft (amount : Nat) : Move BitVector := do
  if bitvector.length ≤ amount then
    (range bitvector.bitField.length).foldlM unset bitvector
  else
    let moved ← (range' amount (bitvector.length - amount)).foldlM (moveBit amount) bitvector
    (range' (bitvector.length - amount) amount).foldlM unset moved

/-- Go on over set bits; `steps` bits are left. -/
def firstUnset (bitvector : BitVector) : (steps index : Nat) → Move Nat
  | 0, index => .ok index
  | steps + 1, index => do
      if ← bitvector.isIndexSet index then
        firstUnset bitvector steps (index + 1)
      else
        return index

/-- The length of the run of set bits from a position on. -/
def longestSetSequenceStartingAt (startIndex : Nat) : Move Nat := do
  assert (startIndex < bitvector.length) indexAbort
  let index ← bitvector.firstUnset (bitvector.length - startIndex) startIndex
  return index - startIndex

variable (bitvector : BitVector) {index : Nat}

theorem get_of_length_le (outside : bitvector.length ≤ index) : bitvector.get index = false := by
  apply getD_eq_default
  rw [bitvector.sized]
  exact outside

theorem new_eq {length : Nat} (positive : 0 < length) (small : length < maxSize) :
    ∃ bitvector, new length = .ok bitvector ∧ bitvector.length = length ∧
      ∀ index, bitvector.get index = false := by
  refine ⟨⟨length, replicate length false, length_replicate⟩, ?_, rfl, ?_⟩
  · rw [new, assert_of positive, assert_of small]
    rfl
  · intro index
    rw [get, getD_eq_getElem?_getD, getElem?_replicate]
    split <;> rfl

theorem isIndexSet_eq (inside : index < bitvector.length) :
    bitvector.isIndexSet index = .ok (bitvector.get index) := by
  rw [isIndexSet, assert_of (by rwa [bitvector.sized])]
  rfl

theorem write_eq (inside : index < bitvector.length) (bit : Bool) :
    ∃ written, bitvector.write index bit = .ok written ∧ written.length = bitvector.length ∧
      ∀ other, written.get other =
        if other = index then bit else bitvector.get other := by
  have inField : index < bitvector.bitField.length := by rwa [bitvector.sized]
  refine ⟨⟨bitvector.length, bitvector.bitField.set index bit,
    length_set.trans bitvector.sized⟩, ?_, rfl, ?_⟩
  · rw [write, assert_of inField]
    rfl
  · intro other
    change (bitvector.bitField.set index bit).getD other false =
      if other = index then bit else bitvector.bitField.getD other false
    by_cases same : other = index
    · subst same
      simp [inField]
    · simp [same, Ne.symm same]

/-- Clearing some of the positions. -/
theorem foldlM_unset (start count : Nat) (inside : start + count ≤ bitvector.length) :
    ∃ cleared, (range' start count).foldlM unset bitvector = .ok cleared ∧
      cleared.length = bitvector.length ∧
      ∀ index, cleared.get index =
        if start ≤ index ∧ index < start + count then false
        else bitvector.get index := by
  induction count generalizing start bitvector with
  | zero =>
    refine ⟨bitvector, rfl, rfl, fun index => ?_⟩
    rw [if_neg]
    omega
  | succ count ih =>
    have startInside : start < bitvector.length := by omega
    obtain ⟨first, firstCleared, firstLength, firstGet⟩ := bitvector.write_eq startInside false
    obtain ⟨cleared, restCleared, restLength, restGet⟩ := ih first (start + 1) (by omega)
    refine ⟨cleared, ?_, restLength.trans firstLength, fun index => ?_⟩
    · rw [range'_succ, foldlM_cons, unset, firstCleared]
      exact restCleared
    · rw [restGet, firstGet]
      grind

theorem moveBit_eq {amount position : Nat} (inside : amount + position < bitvector.length) :
    moveBit amount bitvector (amount + position) =
      bitvector.write position (bitvector.get (amount + position)) := by
  rw [moveBit, bitvector.isIndexSet_eq inside, ok_bind, Nat.add_sub_cancel_left]
  cases bitvector.get (amount + position) <;> rfl

/-- The loop that moves bits reads each of them before it is overwritten. -/
theorem foldlM_moveBit (amount start count : Nat)
    (inside : amount + start + count ≤ bitvector.length) :
    ∃ moved, (range' (amount + start) count).foldlM (moveBit amount) bitvector = .ok moved ∧
      moved.length = bitvector.length ∧
      ∀ index, moved.get index =
        if start ≤ index ∧ index < start + count then
          bitvector.get (amount + index)
        else bitvector.get index := by
  induction count generalizing start bitvector with
  | zero =>
    refine ⟨bitvector, rfl, rfl, fun index => ?_⟩
    rw [if_neg]
    omega
  | succ count ih =>
    have startInside : start < bitvector.length := by omega
    have sourceInside : amount + start < bitvector.length := by omega
    obtain ⟨first, firstMoved, firstLength, firstGet⟩ :=
      bitvector.write_eq startInside (bitvector.get (amount + start))
    obtain ⟨moved, restMoved, restLength, restGet⟩ := ih first (start + 1) (by omega)
    refine ⟨moved, ?_, restLength.trans firstLength, fun index => ?_⟩
    · rw [range'_succ, foldlM_cons, bitvector.moveBit_eq sourceInside, firstMoved]
      exact restMoved
    · rw [restGet, firstGet, firstGet]
      grind

/-- A shift to the left moves all bits and fills up with zeros. -/
theorem shiftLeft_eq (amount : Nat) :
    ∃ shifted, bitvector.shiftLeft amount = .ok shifted ∧ shifted.length = bitvector.length ∧
      ∀ index, shifted.get index = bitvector.get (index + amount) := by
  rw [shiftLeft]
  split
  · rename_i large
    obtain ⟨cleared, done, length, gets⟩ := bitvector.foldlM_unset 0 bitvector.length (by omega)
    refine ⟨cleared, ?_, length, fun index => ?_⟩
    · rw [bitvector.sized, range_eq_range']
      exact done
    · have outside : bitvector.get (index + amount) = false := bitvector.get_of_length_le (by omega)
      rw [gets, outside]
      split
      · rfl
      · exact bitvector.get_of_length_le (by omega)
  · rename_i small
    obtain ⟨moved, movedDone, movedLength, movedGet⟩ :=
      bitvector.foldlM_moveBit amount 0 (bitvector.length - amount) (by omega)
    obtain ⟨cleared, done, length, gets⟩ :=
      moved.foldlM_unset (bitvector.length - amount) amount (by omega)
    refine ⟨cleared, ?_, length.trans movedLength, fun index => ?_⟩
    · rw [Nat.add_zero] at movedDone
      rw [movedDone]
      exact done
    · rw [gets, movedGet, Nat.add_comm index]
      have outside : bitvector.length ≤ amount + index → bitvector.get (amount + index) = false :=
        bitvector.get_of_length_le
      have outsideAlready : bitvector.length ≤ index → bitvector.get index = false :=
        bitvector.get_of_length_le
      grind

/-- The search for the first zero. -/
theorem firstUnset_eq (steps index : Nat) (inside : index + steps = bitvector.length) :
    ∃ stop, bitvector.firstUnset steps index = .ok stop ∧ index ≤ stop ∧ stop ≤ bitvector.length ∧
      bitvector.get stop = false ∧
      ∀ between, index ≤ between → between < stop → bitvector.get between = true := by
  induction steps generalizing index with
  | zero =>
    refine ⟨index, rfl, Nat.le_refl _, by omega, bitvector.get_of_length_le (by omega), ?_⟩
    omega
  | succ steps ih =>
    have indexInside : index < bitvector.length := by omega
    rw [firstUnset, bitvector.isIndexSet_eq indexInside, ok_bind]
    cases bit : bitvector.get index with
    | false =>
      refine ⟨index, rfl, Nat.le_refl _, by omega, bit, ?_⟩
      omega
    | true =>
      obtain ⟨stop, found, low, high, clear, run⟩ := ih (index + 1) (by omega)
      refine ⟨stop, found, by omega, high, clear, ?_⟩
      intro between lower upper
      rcases Nat.eq_or_lt_of_le lower with rfl | later
      · exact bit
      · exact run between later upper

/-- The run of set bits at the start of the vector. -/
theorem longestSetSequenceStartingAt_zero (positive : 0 < bitvector.length) :
    ∃ run, bitvector.longestSetSequenceStartingAt 0 = .ok run ∧ bitvector.get run = false ∧
      ∀ index, index < run → bitvector.get index = true := by
  obtain ⟨stop, found, -, -, clear, set⟩ := bitvector.firstUnset_eq bitvector.length 0 (by omega)
  refine ⟨stop, ?_, clear, fun index below => set index (by omega) below⟩
  rw [longestSetSequenceStartingAt, assert_of positive]
  rw [Nat.sub_zero, found]
  rfl

end BitVector

end Diem
