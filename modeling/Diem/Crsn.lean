import Diem.MoveBitVector
import Mathlib.Data.Nat.Basic

namespace Diem

open Fallible Move

/-!
# Conflict-resistant sequence numbers

`DPN/sources/CRSN.move`: instead of one counter an account has a window of sequence
nonces, each of which can be used once and in any order.  `slots` holds which nonces from
`min_nonce` on were used; the window moves over used nonces at its left end, and it can
be moved by force.
-/

/-- The record of a forced move of the window. -/
structure ForceShiftEvent where
  currentMinNonce : Nat
  shiftAmount : Nat
  bitsAtShift : BitVector
  deriving DecidableEq

/-- The window of an account. -/
structure Crsn where
  minNonce : Nat
  size : Nat
  slots : BitVector
  forceShiftEvents : List ForceShiftEvent
  deriving DecidableEq

namespace Crsn

def noCrsn : MoveAbort := .abort .crsn .invalidState 0

/-- The largest size of a window. -/
def maxCrsnSize : Nat := 256

/-- A window for an account that has none yet. -/
def publish (crsnsAllowed : Bool) (current : Option Crsn) (minNonce size : Nat) : Move Crsn := do
  assert (current = none) (.abort .crsn .invalidState 1)
  assert (0 < size) (.abort .crsn .invalidArgument 2)
  assert (size ≤ maxCrsnSize) (.abort .crsn .invalidArgument 3)
  assert (crsnsAllowed = true) (.abort .crsn .invalidState 5)
  let slots ← BitVector.new size
  return ⟨minNonce, size, slots, []⟩

/-- Move the window over the set bits at its left end. -/
def shiftWindowRight (crsn : Crsn) : Move Crsn := do
  let index ← crsn.slots.longestSetSequenceStartingAt 0
  if index = 0 then
    return crsn
  else
    let slots ← crsn.slots.shiftLeft index
    let minNonce ← addU64 crsn.minNonce index
    return { crsn with slots, minNonce }

variable (current : Option Crsn)

/-- Whether a nonce will be accepted. -/
def check (sequenceNonce : Nat) : Move Bool := do
  assert (current.isSome = true) noCrsn
  let crsn ← borrowGlobal current
  if sequenceNonce < crsn.minNonce ∨ crsn.minNonce + crsn.slots.bitField.length ≤ sequenceNonce then
    return false
  else
    let scaledNonce ← subU64 sequenceNonce crsn.minNonce
    return !(← crsn.slots.isIndexSet scaledNonce)

/-- Use a nonce; the answer tells whether it is accepted. -/
def record (sequenceNonce : Nat) : Move (Bool × Option Crsn) := do
  if ← check current sequenceNonce then
    let crsn ← borrowGlobal current
    let scaledNonce ← subU64 sequenceNonce crsn.minNonce
    let slots ← crsn.slots.set scaledNonce
    let shifted ← shiftWindowRight { crsn with slots }
    return (true, some shifted)
  else
    match current with
    | some crsn => return (decide (sequenceNonce < crsn.minNonce), current)
    | none => return (false, current)

/-- Move the window by force, and then over set bits. -/
def forceExpire (shiftAmount : Nat) : Move Crsn := do
  assert (0 < shiftAmount) (.abort .crsn .invalidArgument 4)
  assert (current.isSome = true) noCrsn
  let crsn ← borrowGlobal current
  let event : ForceShiftEvent := ⟨crsn.minNonce, shiftAmount, crsn.slots⟩
  let slots ← crsn.slots.shiftLeft shiftAmount
  let minNonce ← addU64 crsn.minNonce shiftAmount
  shiftWindowRight
    { crsn with
      minNonce, slots, forceShiftEvents := crsn.forceShiftEvents ++ [event] }

/-- A forced move went over the nonce while it was not used. -/
def Expired (crsn : Crsn) (nonce : Nat) : Prop :=
  ∃ event ∈ crsn.forceShiftEvents,
    event.currentMinNonce ≤ nonce ∧ nonce < event.currentMinNonce + event.shiftAmount ∧
      event.bitsAtShift.get (nonce - event.currentMinNonce) = false

/-- The window shows which nonces from its left end on were used. -/
structure Shows (crsn : Crsn) (used : List Nat) : Prop where
  sized : crsn.slots.length = crsn.size
  positive : 0 < crsn.size
  fits : crsn.minNonce ≤ maxU64
  bits : ∀ index, crsn.slots.get index = true ↔ crsn.minNonce + index ∈ used
  shifted :
    ∀ event ∈ crsn.forceShiftEvents, event.currentMinNonce + event.shiftAmount ≤ crsn.minNonce

/-- The window shows the used nonces, and its first bit is clear. -/
structure Settled (crsn : Crsn) (used : List Nat) : Prop extends crsn.Shows used where
  clear : crsn.slots.get 0 = false

variable {crsn : Crsn} {used : List Nat}

/-- Moving over set bits keeps what the window shows. -/
theorem Shows.shiftWindowRight (shows : crsn.Shows used)
    (bounded : ∀ nonce ∈ used, nonce < maxU64) :
    ∃ settled,
      crsn.shiftWindowRight = .ok settled ∧ settled.Settled used ∧ settled.size = crsn.size ∧
        crsn.minNonce ≤ settled.minNonce ∧
        settled.forceShiftEvents = crsn.forceShiftEvents := by
  have positive : 0 < crsn.slots.length := by
    rw [shows.sized]
    exact shows.positive
  obtain ⟨run, found, clear, set⟩ := crsn.slots.longestSetSequenceStartingAt_zero positive
  rw [Crsn.shiftWindowRight, found, Move.ok_bind]
  by_cases none : run = 0
  · subst none
    exact ⟨crsn, rfl, ⟨shows, clear⟩, rfl, le_rfl, rfl⟩
  · rw [if_neg none]
    obtain ⟨slots, shifted, length, gets⟩ := crsn.slots.shiftLeft_eq run
    -- the last bit of the run is a used nonce, so the sum fits
    have last : crsn.slots.get (run - 1) = true := set (run - 1) (by omega)
    have lastUsed := bounded _ ((shows.bits (run - 1)).mp last)
    have sum : crsn.minNonce + run ≤ maxU64 := by omega
    rw [shifted, Move.ok_bind, Move.addU64_of_le sum]
    refine ⟨_, rfl, ⟨⟨?_, shows.positive, sum, ?_, ?_⟩, ?_⟩, rfl, ?_, rfl⟩
    · exact length.trans shows.sized
    · intro index
      rw [gets, shows.bits]
      have same : crsn.minNonce + (index + run) = crsn.minNonce + run + index := by omega
      rw [same]
    · intro event member
      exact Nat.le_add_right_of_le (shows.shifted event member)
    · rw [gets, Nat.zero_add]
      exact clear
    · exact Nat.le_add_right _ _

variable {current : Option Crsn} {crsnsAllowed : Bool}

section

variable {minNonce size : Nat} (published : publish crsnsAllowed current minNonce size = .ok crsn)
include published

theorem publish_eq_ok :
    current = none ∧ 0 < size ∧ size ≤ maxCrsnSize ∧
      ∃ slots, BitVector.new size = .ok slots ∧ crsn = ⟨minNonce, size, slots, []⟩ := by
  simp only [publish, check_eq_ok_iff, Move.assert_eq_ok_iff] at published
  obtain ⟨absent, positive, small, -, published⟩ := published
  obtain ⟨slots, created, same⟩ := bind_eq_ok_iff.mp published
  cases same
  exact ⟨absent, positive, small, slots, created, rfl⟩

/-- A new window shows nonces that are all below it. -/
theorem publish_settled (fits : minNonce ≤ maxU64) (below : ∀ nonce ∈ used, nonce < minNonce) :
    crsn.minNonce = minNonce ∧ crsn.Settled used := by
  obtain ⟨-, positive, small, slots, created, rfl⟩ := publish_eq_ok published
  have short : size < BitVector.maxSize := by
    rw [BitVector.maxSize]
    rw [maxCrsnSize] at small
    omega
  obtain ⟨zeros, zerosCreated, length, zero⟩ := BitVector.new_eq positive short
  rw [created] at zerosCreated
  cases zerosCreated
  refine ⟨rfl, ⟨⟨length, positive, fits, ?_, ?_⟩, zero 0⟩⟩
  · intro index
    rw [zero]
    refine iff_of_false nofun fun member => ?_
    have lower := below _ member
    dsimp only at lower
    omega
  · intro event member
    cases member

end

/-- The check for a nonce, in terms of the used ones. -/
theorem Shows.check_eq (shows : crsn.Shows used) (nonce : Nat) :
    check (some crsn) nonce =
      .ok (decide (crsn.minNonce ≤ nonce ∧ nonce < crsn.minNonce + crsn.size ∧ nonce ∉ used)) := by
  change (if nonce < crsn.minNonce ∨ crsn.minNonce + crsn.slots.bitField.length ≤ nonce then
    .ok false
  else do
    let scaledNonce ← subU64 nonce crsn.minNonce
    return !(← crsn.slots.isIndexSet scaledNonce)) = _
  rw [crsn.slots.sized, shows.sized]
  split
  · rename_i outside
    rw [decide_eq_false]
    omega
  · rename_i inside
    have lower : crsn.minNonce ≤ nonce := by omega
    have index : nonce - crsn.minNonce < crsn.slots.length := by
      rw [shows.sized]
      omega
    have bit := shows.bits (nonce - crsn.minNonce)
    rw [Nat.add_sub_cancel' lower] at bit
    rw [subU64_of_le lower, Move.ok_bind, crsn.slots.isIndexSet_eq index, Move.ok_bind]
    congr 1
    rw [Bool.eq_iff_iff, decide_eq_true_iff, Bool.not_eq_true', ← bit, Bool.not_eq_true]
    constructor
    · intro clear
      exact ⟨lower, by omega, clear⟩
    · rintro ⟨-, -, clear⟩
      exact clear

/-- A nonce that is left of the right end and was not used is recorded. -/
theorem Settled.record (settled : crsn.Settled used) {nonce : Nat} (fresh : nonce ∉ used)
    (inside : nonce < crsn.minNonce + crsn.size)
    (bounded : ∀ other ∈ nonce :: used, other < maxU64) :
    ∃ recorded,
      Crsn.record (some crsn) nonce = .ok (true, some recorded) ∧ recorded.Settled (nonce :: used) ∧
        recorded.size = crsn.size ∧
        crsn.minNonce ≤ recorded.minNonce ∧
        recorded.forceShiftEvents = crsn.forceShiftEvents := by
  rw [Crsn.record, settled.check_eq, Move.ok_bind]
  by_cases lower : crsn.minNonce ≤ nonce
  · rw [decide_eq_true ⟨lower, inside, fresh⟩, if_pos rfl]
    have index : nonce - crsn.minNonce < crsn.slots.length := by
      rw [settled.sized]
      omega
    obtain ⟨slots, set, length, gets⟩ := crsn.slots.write_eq index true
    have shows : ({ crsn with slots } : Crsn).Shows (nonce :: used) := by
      refine ⟨length.trans settled.sized, settled.positive, settled.fits, ?_, settled.shifted⟩
      intro other
      have bit := settled.bits other
      have same : other = nonce - crsn.minNonce ↔ crsn.minNonce + other = nonce := by omega
      rw [gets, List.mem_cons, ← same, ← bit]
      by_cases here : other = nonce - crsn.minNonce
      · simp [here]
      · simp [here]
    obtain ⟨recorded, shifted, result, size, order, events⟩ := shows.shiftWindowRight bounded
    refine ⟨recorded, ?_, result, size, order, events⟩
    change (do
      let scaledNonce ← subU64 nonce crsn.minNonce
      let slots ← crsn.slots.set scaledNonce
      let shifted ← Crsn.shiftWindowRight { crsn with slots }
      return (true, some shifted)) = _
    rw [subU64_of_le lower, Move.ok_bind, BitVector.set, set, Move.ok_bind, shifted]
    rfl
  · -- the window was moved over the nonce in the meantime
    have rejected :
        ¬ (crsn.minNonce ≤ nonce ∧ nonce < crsn.minNonce + crsn.size ∧ nonce ∉ used) := by
      omega
    rw [decide_eq_false rejected, if_neg (by decide)]
    refine ⟨crsn, ?_, ⟨⟨settled.sized, settled.positive, settled.fits, ?_,
      settled.shifted⟩, settled.clear⟩, rfl, le_rfl, rfl⟩
    · change Except.ok (decide (nonce < crsn.minNonce), some crsn) = _
      rw [decide_eq_true (by omega)]
    · intro index
      rw [settled.bits, List.mem_cons]
      constructor
      · exact .inr
      · rintro (same | member)
        · omega
        · exact member

/-- A forced move keeps what the window shows. -/
theorem Settled.forceExpire {shiftAmount : Nat} {moved : Crsn}
    (done : Crsn.forceExpire current shiftAmount = .ok moved)
    (settled : ∀ crsn, current = some crsn → crsn.Settled used)
    (bounded : ∀ nonce ∈ used, nonce < maxU64) :
    ∃ crsn, current = some crsn ∧ moved.Settled used ∧ moved.size = crsn.size ∧
      crsn.minNonce ≤ moved.minNonce := by
  obtain ⟨-, done⟩ := check_eq_ok_iff.mp done
  obtain ⟨-, done⟩ := check_eq_ok_iff.mp done
  obtain ⟨crsn, found, done⟩ := bind_eq_ok_iff.mp done
  rw [Move.borrowGlobal_eq_ok_iff] at found
  have before := settled crsn found
  obtain ⟨slots, shifted, length, gets⟩ := crsn.slots.shiftLeft_eq shiftAmount
  rw [shifted, Move.ok_bind] at done
  obtain ⟨minNonce, sum, done⟩ := bind_eq_ok_iff.mp done
  obtain ⟨rfl, fits⟩ := Move.addU64_eq_ok_iff.mp sum
  have shows : ({ crsn with
        minNonce := crsn.minNonce + shiftAmount
        slots := slots
        forceShiftEvents :=
          crsn.forceShiftEvents ++ [⟨crsn.minNonce, shiftAmount, crsn.slots⟩] } : Crsn).Shows
        used := by
    refine ⟨length.trans before.sized, before.positive, fits, ?_, ?_⟩
    · intro index
      rw [gets, before.bits]
      have same : crsn.minNonce + (index + shiftAmount) = crsn.minNonce + shiftAmount + index := by
        omega
      rw [same]
    · intro event member
      rcases List.mem_append.mp member with earlier | last
      · exact Nat.le_add_right_of_le (before.shifted event earlier)
      · rw [List.mem_singleton.mp last]
  obtain ⟨result, moves, after, size, order, -⟩ := shows.shiftWindowRight bounded
  rw [moves] at done
  cases done
  exact ⟨crsn, found, after, size, Nat.le_of_add_right_le order⟩

end Crsn

end Diem
