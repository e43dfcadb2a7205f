import Mathlib.Algebra.Order.Group.Nat
import Mathlib.Data.List.Basic
import Mathlib.Data.List.TakeDrop

namespace Diem

open List

/-!
# Removal by a swap with the last element

`Vec::swap_remove` and Move's `Vector::swap_remove` fill the removed position with the last
element.  Up to the order that removes one element, and at most one other element moves.
-/

/-- Remove a position and put the last element there. -/
def swapRemove {α : Type} (items : List α) (position : Nat) : List α :=
  match items.getLast? with
  | some last => (items.set position last).dropLast
  | none => []

variable {α : Type} {items : List α} {item : α} {position : Nat}

section

variable (found : items[position]? = some item)
include found

theorem exists_split_of_getElem? :
    ∃ before after, items = before ++ item :: after ∧ before.length = position := by
  obtain ⟨inside, same⟩ := List.getElem?_eq_some_iff.mp found
  refine ⟨items.take position, items.drop (position + 1), ?_, ?_⟩
  · rw [← same, cons_getElem_drop_succ, take_append_drop]
  · rw [length_take, Nat.min_eq_left inside.le]

theorem set_perm (other : α) :
    ∃ rest, items.Perm (item :: rest) ∧ (items.set position other).Perm (other :: rest) := by
  obtain ⟨before, after, rfl, rfl⟩ := exists_split_of_getElem? found
  refine ⟨before ++ after, perm_middle, ?_⟩
  rw [set_append_right _ _ le_rfl, Nat.sub_self, set_cons_zero]
  exact perm_middle

/-- Removing an element, up to the order. -/
theorem swapRemove_perm : items.Perm (item :: swapRemove items position) := by
  obtain ⟨before, after, rfl, rfl⟩ := exists_split_of_getElem? found
  rw [swapRemove]
  rcases eq_nil_or_concat' after with rfl | ⟨rest, last, rfl⟩
  · rw [getLast?_concat]
    dsimp only
    rw [set_append_right _ _ le_rfl, Nat.sub_self, set_cons_zero, dropLast_concat]
    exact perm_append_singleton item before
  · rw [← cons_append, ← append_assoc, getLast?_concat]
    dsimp only
    rw [append_assoc, set_append_right _ _ le_rfl, Nat.sub_self, cons_append, set_cons_zero]
    have shorter : (before ++ last :: (rest ++ [last])).dropLast = before ++ last :: rest := by
      rw [← cons_append, ← append_assoc, dropLast_concat]
    rw [shorter]
    calc before ++ item :: (rest ++ [last])
        _ ~ item :: (before ++ (rest ++ [last])) := perm_middle
        _ ~ item :: (before ++ last :: rest) :=
          (List.Perm.append_left before (perm_append_singleton last rest)).cons item

end

theorem getElem?_swapRemove (inside : position < items.length) (other : Nat) :
    (swapRemove items position)[other]? =
      if other + 1 < items.length then
        if other = position then items[items.length - 1]? else items[other]?
      else none := by
  have nonempty : items ≠ [] := ne_nil_of_length_pos (by omega)
  have last : items.getLast? = some (items.getLast nonempty) := getLast?_eq_some_getLast nonempty
  rw [swapRemove, last]
  rw [getElem?_dropLast, length_set, getElem?_set, ← getLast?_eq_getElem?, last]
  by_cases early : other + 1 < items.length
  · rw [if_pos early, if_pos (Nat.lt_sub_of_add_lt early)]
    by_cases same : position = other
    · rw [if_pos same, if_pos same.symm, if_pos inside]
    · rw [if_neg same, if_neg (Ne.symm same)]
  · rw [if_neg early, if_neg (by omega)]

end Diem
