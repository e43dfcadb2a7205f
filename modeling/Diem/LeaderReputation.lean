import Diem.Fallible
import Diem.ValidatorVerifier

namespace Diem

open List

/-!
# Leaders chosen by reputation

`LeaderReputation` gives every proposer a weight and looks a pseudo-random number up in
the sums of the weights (`consensus/src/liveness/leader_reputation.rs`).  The binary
search is that of the standard library.
-/

/-- Search the range from `left` to `right`; an error says where the item belongs. -/
def binarySearchBy {α : Type} (compare : α → Ordering) (items : List α)
    (left right : Nat) : Except Nat Nat :=
  if left < right then
    let mid := left + (right - left) / 2
    match (items[mid]?).map compare with
    | some .lt => binarySearchBy compare items (mid + 1) right
    | some .gt => binarySearchBy compare items left mid
    | some .eq => .ok mid
    | none => .error left
  else
    .error left
termination_by right - left

/-- The search ends where the smaller items end. -/
theorem binarySearchBy_eq {α : Type} {compare : α → Ordering} {items : List α}
    {left right split : Nat}
    (sorted : ∀ index < items.length,
      (items[index]?).map compare = some (if index < split then .lt else .gt))
    (low : left ≤ split)
    (high : split ≤ right)
    (inside : right ≤ items.length) :
    binarySearchBy compare items left right = .error split := by
  fun_induction binarySearchBy compare items left right with
  | case1 left right nonempty mid isLess ih =>
    have found := sorted mid (by omega)
    exact ih (by grind) high inside
  | case2 left right nonempty mid isGreater ih =>
    have found := sorted mid (by omega)
    exact ih low (by grind) (by omega)
  | case3 left right nonempty mid isEqual =>
    have found := sorted mid (by omega)
    grind
  | case4 left right nonempty mid outside =>
    have found := sorted mid (by omega)
    simp [outside] at found
  | case5 left right empty =>
    have same : left = split := by omega
    rw [same]

/-- A block that was committed. -/
structure NewBlockEvent where
  proposer : AccountAddress
  votes : List AccountAddress

/-- Two weights, for candidates that appear in the history and for the others. -/
structure ActiveInactiveHeuristic where
  activeWeight : Nat
  inactiveWeight : Nat

def ActiveInactiveHeuristic.getWeights (heuristic : ActiveInactiveHeuristic)
    (candidates : List AccountAddress)
    (history : List NewBlockEvent) : List Nat :=
  let set := history.flatMap fun event => event.proposer :: event.votes
  candidates.map fun author =>
    if author ∈ set then heuristic.activeWeight else heuristic.inactiveWeight

/-- A choice of leaders; the committed blocks and the heuristic are given as functions. -/
structure LeaderReputation where
  proposers : List AccountAddress
  getBlockMetadata : Nat → List NewBlockEvent
  getWeights : List AccountAddress → List NewBlockEvent → List Nat
  excludeRound : Nat

namespace LeaderReputation

/-- The eight bytes of a number, the lowest first. -/
def toLeBytes (round : Nat) : List UInt8 :=
  (range 8).map fun position => .ofNat (round / 256 ^ position)

/-- The number that bytes stand for, the lowest first. -/
def fromLeBytes (bytes : List UInt8) : Nat :=
  bytes.foldr (fun byte rest => byte.toNat + 256 * rest) 0

/-- Hash the state, and read a number off it. -/
def next (sha3 : List UInt8 → List UInt8) (state : List UInt8) : List UInt8 × Nat :=
  (sha3 state, fromLeBytes ((sha3 state).take 8))

/-- Replace every weight by the sum up to it; returns the total too. -/
def accumulate : Nat → List Nat → List Nat × Nat
  | totalWeight, [] => ([], totalWeight)
  | totalWeight, weight :: rest =>
    let sum := Word64.wrap (totalWeight + weight)
    let (weights, total) := accumulate sum rest
    (sum :: weights, total)

/-- The first index whose sum is above the chosen weight. -/
def chosenIndex (sums : List Nat) (chosenWeight : Nat) : Fallible Nat :=
  match binarySearchBy
      (fun sum => if sum ≤ chosenWeight then .lt else .gt) sums 0
      sums.length with
  | .error index => .ok index
  | .ok _ => .error (.panic "called `Result::unwrap_err()` on an `Ok` value")

def getValidProposer (sha3 : List UInt8 → List UInt8) (leader : LeaderReputation) (round : Nat) :
    Fallible AccountAddress := do
  let targetRound := round - leader.excludeRound
  let slidingWindow := leader.getBlockMetadata targetRound
  let weights := leader.getWeights leader.proposers slidingWindow
  Fallible.require (weights.length = leader.proposers.length) "assertion failed: `(left == right)`"
  let (sums, totalWeight) := accumulate 0 weights
  let (_, number) := next sha3 (toLeBytes round)
  Fallible.require (totalWeight ≠ 0) "attempt to calculate the remainder with a divisor of zero"
  let index ← chosenIndex sums (number % totalWeight)
  Fallible.expect leader.proposers[index]? "index out of bounds"

/-- The chosen weight falls into the share of an index. -/
def Selects (weights : List Nat) (chosenWeight index : Nat) : Prop :=
  (weights.take index).sum ≤ chosenWeight ∧ chosenWeight < (weights.take (index + 1)).sum

variable {weights : List Nat} {chosen first second index total : Nat}

theorem accumulate_total (fits : total + weights.sum < 2 ^ 64) :
    (accumulate total weights).2 = total + weights.sum ∧
      (accumulate total weights).1.length = weights.length := by
  induction weights generalizing total with
  | nil => simp [accumulate]
  | cons weight rest ih =>
    simp only [sum_cons] at fits
    have whole : Word64.wrap (total + weight) = total + weight := Word64.wrap_eq_self (by omega)
    have next : total + weight + rest.sum < 2 ^ 64 := by omega
    obtain ⟨sum, length⟩ := ih next
    simp [accumulate, whole, sum, length, Nat.add_assoc]

theorem accumulate_get (fits : total + weights.sum < 2 ^ 64) (inside : index < weights.length) :
    (accumulate total weights).1[index]? = some (total + (weights.take (index + 1)).sum) := by
  induction weights generalizing total index with
  | nil => simp at inside
  | cons weight rest ih =>
    simp only [sum_cons] at fits
    have whole : Word64.wrap (total + weight) = total + weight := Word64.wrap_eq_self (by omega)
    cases index with
    | zero => simp [accumulate, whole]
    | succ index =>
      have next : total + weight + rest.sum < 2 ^ 64 := by omega
      have found := ih next (Nat.lt_of_succ_lt_succ inside)
      simpa [accumulate, whole, Nat.add_assoc] using found

theorem sum_take_mono (weights : List Nat) (order : first ≤ second) :
    (weights.take first).sum ≤ (weights.take second).sum := by
  obtain ⟨more, rfl⟩ := Nat.exists_eq_add_of_le order
  simp [take_add]

theorem Selects.unique (one : Selects weights chosen first)
    (other : Selects weights chosen second) : first = second := by
  obtain ⟨low, high⟩ := one
  obtain ⟨low', high'⟩ := other
  rcases Nat.lt_trichotomy first second with before | same | after
  · have apart : first + 1 ≤ second := before
    have shares := sum_take_mono weights apart
    omega
  · exact same
  · have apart : second + 1 ≤ first := after
    have shares := sum_take_mono weights apart
    omega

/-- Every weight below the total falls into a share that is not empty. -/
theorem exists_selects (below : chosen < weights.sum) :
    ∃ index, Selects weights chosen index ∧ index < weights.length := by
  induction weights generalizing chosen with
  | nil => simp at below
  | cons weight rest ih =>
    by_cases inFirst : chosen < weight
    · exact ⟨0, by simp [Selects, inFirst]⟩
    · rw [sum_cons] at below
      obtain ⟨index, ⟨low, high⟩, inside⟩ := ih (by omega : chosen - weight < rest.sum)
      refine ⟨index + 1, ⟨?_, ?_⟩, by simpa using inside⟩ <;>
        simp only [take_succ_cons, sum_cons] <;> omega

section

variable (fits : weights.sum < 2 ^ 64)
include fits

/-- The binary search finds the share. -/
theorem chosenIndex_of_selects (selects : Selects weights chosen index)
    (inside : index < weights.length) :
    chosenIndex (accumulate 0 weights).1 chosen = .ok index := by
  have whole : 0 + weights.sum < 2 ^ 64 := by omega
  have length := (accumulate_total whole).2
  obtain ⟨low, high⟩ := selects
  have sorted : ∀ position < (accumulate 0 weights).1.length,
        ((accumulate 0 weights).1[position]?).map
            (fun sum => if sum ≤ chosen then Ordering.lt else .gt) =
          some (if position < index then .lt else .gt) := by
    intro position below
    rw [accumulate_get whole (length ▸ below)]
    by_cases before : position < index
    · have apart : position + 1 ≤ index := before
      have shares := sum_take_mono weights apart
      simp [before, shares.trans low]
    · have apart : index + 1 ≤ position + 1 := by omega
      have shares := sum_take_mono weights apart
      simp [before, not_le.mpr (high.trans_le shares)]
  rw [chosenIndex, binarySearchBy_eq sorted (Nat.zero_le _) (by omega) le_rfl]

theorem chosenIndex_eq_iff (below : chosen < weights.sum) :
    chosenIndex (accumulate 0 weights).1 chosen = .ok index ↔ Selects weights chosen index := by
  obtain ⟨found, selects, inside⟩ := exists_selects below
  rw [chosenIndex_of_selects fits selects inside, Except.ok.injEq]
  exact ⟨fun same => same ▸ selects, fun other => selects.unique other⟩

/-- Each proposer has as many of the weights as it weighs. -/
theorem card_chosenIndex {weight : Nat} (found : weights[index]? = some weight) :
    ((Finset.range weights.sum).filter fun chosen =>
        chosenIndex (accumulate 0 weights).1 chosen = .ok index).card =
      weight := by
  have next : (weights.take (index + 1)).sum = (weights.take index).sum + weight := by
    simp [take_add_one, found]
  have share := sum_take_add_sum_drop weights (index + 1)
  have interval : ((Finset.range weights.sum).filter fun chosen =>
          chosenIndex (accumulate 0 weights).1 chosen = .ok index) =
        Finset.Ico (weights.take index).sum (weights.take (index + 1)).sum := by
    ext chosen
    rw [Finset.mem_filter, Finset.mem_range, Finset.mem_Ico]
    constructor
    · rintro ⟨below, isChosen⟩
      exact (chosenIndex_eq_iff fits below).mp isChosen
    · intro selects
      have below : chosen < weights.sum := by omega
      exact ⟨below, (chosenIndex_eq_iff fits below).mpr selects⟩
  rw [interval, Nat.card_Ico]
  omega

end

/--
The leader is the proposer into whose share the chosen weight falls, the share is not
empty, and every proposer has as many of the possible weights as it weighs.
-/
theorem getValidProposer_exact
    (sha3 : List UInt8 → List UInt8)
    (leader : LeaderReputation)
    (round : Nat)
    (isWeights :
      leader.getWeights leader.proposers (leader.getBlockMetadata (round - leader.excludeRound)) =
        weights)
    (lengths : weights.length = leader.proposers.length)
    (positive : 0 < weights.sum)
    (fits : weights.sum < 2 ^ 64) :
    (∃ index proposer, (∀ other,
      Selects weights ((next sha3 (toLeBytes round)).2 % weights.sum) other ↔ other = index) ∧
      weights[index]? ≠ some 0 ∧
      leader.proposers[index]? = some proposer ∧
      getValidProposer sha3 leader round = .ok proposer) ∧
    ∀ index weight, weights[index]? = some weight → ((Finset.range weights.sum).filter fun chosen =>
        chosenIndex (accumulate 0 weights).1 chosen = .ok index).card =
      weight := by
  refine ⟨?_, fun index weight found => card_chosenIndex fits found⟩
  have below := Nat.mod_lt (next sha3 (toLeBytes round)).2 positive
  obtain ⟨index, selects, inside⟩ := exists_selects below
  obtain ⟨proposer, isProposer⟩ : ∃ proposer, leader.proposers[index]? = some proposer :=
    ⟨_, getElem?_eq_getElem (lengths ▸ inside)⟩
  refine ⟨index, proposer, fun other => ⟨fun also => also.unique selects, ?_⟩, ?_, isProposer, ?_⟩
  · rintro rfl
    exact selects
  · intro weightless
    obtain ⟨low, high⟩ := selects
    simp [take_add_one, weightless] at high
    omega
  · have whole : 0 + weights.sum < 2 ^ 64 := by omega
    have total := (accumulate_total whole).1
    simp [getValidProposer, isWeights, lengths, total, positive.ne', Fallible.require,
      Fallible.expect, chosenIndex_of_selects fits selects inside, isProposer]

/-- Three proposers, the second of which has no weight. -/
theorem getValidProposer_exact_idle :
    ∃ proposer, getValidProposer (fun state => state)
      ⟨[7, 8, 9], fun _ => [⟨7, [9]⟩],
        ActiveInactiveHeuristic.getWeights ⟨2, 0⟩, 4⟩ 10 = .ok proposer := by
  obtain ⟨⟨_, proposer, -, -, -, isLeader⟩, -⟩ := getValidProposer_exact (fun state => state)
    ⟨[7, 8, 9], fun _ => [⟨7, [9]⟩], ActiveInactiveHeuristic.getWeights ⟨2, 0⟩, 4⟩ 10
    (rfl : _ = [2, 0, 2]) rfl (by decide) (by decide)
  exact ⟨proposer, isLeader⟩

end LeaderReputation

end Diem
