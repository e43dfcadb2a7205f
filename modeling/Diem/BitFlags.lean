import Mathlib.Data.List.Basic
import Mathlib.Data.List.Count

namespace Diem

/-!
# Flags and their positions

A list of flags and the positions of those that are set, in increasing order.
-/

namespace BitFlags

/-- The positions of the set flags, if the first flag has a given position. -/
def positionsFrom : Nat → List Bool → List Nat
  | _, [] => []
  | start, true :: flags => start :: positionsFrom (start + 1) flags
  | start, false :: flags => positionsFrom (start + 1) flags

/-- The positions of the set flags, counted from zero. -/
def positions (flags : List Bool) : List Nat :=
  positionsFrom 0 flags

variable {position : Nat} {flags : List Bool}

/-- A position is listed exactly if its flag is set. -/
theorem mem_positionsFrom {start : Nat} :
    position ∈ positionsFrom start flags ↔
      start ≤ position ∧ flags[position - start]? = some true := by
  induction flags generalizing start with
  | nil => simp [positionsFrom]
  | cons flag flags ih =>
    rcases Nat.lt_trichotomy position start with before | same | after
    · have outside : ¬ start + 1 ≤ position := by omega
      have early : ¬ start ≤ position := by omega
      have different : position ≠ start := by omega
      cases flag <;> simp [positionsFrom, ih, outside, early, different]
    · subst same
      have outside : ¬ position + 1 ≤ position := by omega
      cases flag <;> simp [positionsFrom, ih, outside]
    · obtain ⟨offset, rfl⟩ := Nat.exists_eq_add_of_lt after
      have shifted : start + offset + 1 - start = offset + 1 := by omega
      have next : start + offset + 1 - (start + 1) = offset := by omega
      have inside : start ≤ start + offset + 1 := by omega
      cases flag <;> simp [positionsFrom, ih, shifted, next, inside]
      omega

theorem mem_positions : position ∈ positions flags ↔ flags[position]? = some true := by
  rw [positions, mem_positionsFrom]
  simp

theorem length_positionsFrom (start : Nat) (flags : List Bool) :
    (positionsFrom start flags).length = flags.count true := by
  induction flags generalizing start with
  | nil => rfl
  | cons flag flags ih => cases flag <;> simp [positionsFrom, ih]

/-- There are as many positions as set flags. -/
theorem length_positions (flags : List Bool) : (positions flags).length = flags.count true :=
  length_positionsFrom 0 flags

/-- The positions increase; the induction is on the flags. -/
theorem pairwise_positionsFrom (start : Nat) (flags : List Bool) :
    (positionsFrom start flags).Pairwise (· < ·) := by
  induction flags generalizing start with
  | nil => exact .nil
  | cons flag flags ih =>
    cases flag with
    | false => exact ih (start + 1)
    | true =>
      refine .cons ?_ (ih (start + 1))
      intro position member
      have bound := (mem_positionsFrom.mp member).1
      omega

theorem pairwise_positions (flags : List Bool) : (positions flags).Pairwise (· < ·) :=
  pairwise_positionsFrom 0 flags

/-- Setting a flag adds its position. -/
theorem mem_positions_set {index : Nat} (inside : index < flags.length) :
    position ∈ positions (flags.set index true) ↔
      position = index ∨ position ∈ positions flags := by
  rw [mem_positions, mem_positions, List.getElem?_set]
  by_cases same : index = position
  · subst same
    simp [inside]
  · simp [same, Ne.symm same]

end BitFlags

end Diem
