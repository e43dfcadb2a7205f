import Diem.JellyfishWrites

namespace Diem

open AccountKey List

/-!
# Splitting sorted keys by a nibble

The iterator over the ranges of a nibble splits keys that share the nibbles before it
into one part for each nibble that occurs.
-/

variable {Value : Type} {front : NibblePath}

theorem NibblePath.append_lt_append {nibble nibble' : Nibble} {rest rest' : NibblePath}
    (less : front ++ nibble :: rest < front ++ nibble' :: rest') : nibble ≤ nibble' := by
  induction front with
  | nil =>
    rcases cons_lt_cons_iff.mp less with smaller | ⟨same, -⟩
    · exact smaller.le
    · exact same.le
  | cons head front ih =>
    rcases cons_lt_cons_iff.mp less with smaller | ⟨-, shorter⟩
    · exact (lt_irrefl _ smaller).elim
    · exact ih shorter

variable {key : AccountKey}

theorem AccountKey.getNibble_eq {nibble : Nibble} (starts : front ++ [nibble] <+: key.nibbles) :
    key.getNibble front.length = nibble := by
  obtain ⟨rest, shape⟩ := starts
  rw [getNibble, ← shape]
  simp

theorem AccountKey.starts_getNibble (starts : front <+: key.nibbles)
    (short : front.length < rootNibbleHeight) :
    front ++ [key.getNibble front.length] <+: key.nibbles := by
  obtain ⟨nibble, next⟩ := exists_nibble starts short
  rw [getNibble_eq next]
  exact next

/-- Behind common nibbles, the next nibble follows the order of keys. -/
theorem AccountKey.getNibble_le {first second : AccountKey} (firstStarts : front <+: first.nibbles)
    (secondStarts : front <+: second.nibbles) (short : front.length < rootNibbleHeight)
    (less : first < second) : first.getNibble front.length ≤ second.getNibble front.length := by
  obtain ⟨rest, shape⟩ := starts_getNibble firstStarts short
  obtain ⟨rest', shape'⟩ := starts_getNibble secondStarts short
  rw [append_assoc, singleton_append] at shape shape'
  rw [lt_iff, ← shape, ← shape'] at less
  exact NibblePath.append_lt_append less

variable {kvs : KeyValues Value}

namespace KeyValues

/-- Keys in increasing order below a path that is not complete. -/
structure SortedBelow (front : NibblePath) (kvs : KeyValues Value) : Prop where
  sorted : (kvs.map Prod.fst).Pairwise (· < ·)
  starts : ∀ kv ∈ kvs, front <+: kv.1.nibbles

/-- One part for every nibble that occurs. -/
structure Splits (nibbleIdx : Nat) (kvs : KeyValues Value)
    (slices : List (KeyValues Value)) : Prop where
  nodup : (slices.map fun slice => slice.firstNibble nibbleIdx).Nodup
  slice : ∀ slice ∈ slices, slice ≠ [] ∧
    slice = kvs.filter fun kv => kv.1.getNibble nibbleIdx = slice.firstNibble nibbleIdx
  covers :
    ∀ kv ∈ kvs, kv.1.getNibble nibbleIdx ∈ slices.map fun slice => slice.firstNibble nibbleIdx

section Search

theorem nibbleAt_eq {nibbleIdx index : Nat} {kv : AccountKey × Value}
    (lookup : kvs[index]? = some kv) : nibbleAt kvs nibbleIdx index = kv.1.getNibble nibbleIdx := by
  rw [nibbleAt, lookup]

section

variable (below : SortedBelow front kvs) (short : front.length < rootNibbleHeight)
include below short

theorem SortedBelow.nibbleAt_le {index later : Nat} (order : index ≤ later)
    (inside : later < kvs.length) :
    nibbleAt kvs front.length index ≤ nibbleAt kvs front.length later := by
  have lookup := getElem?_eq_getElem (l := kvs) (i := index) (by omega)
  have lookup' := getElem?_eq_getElem inside
  rw [nibbleAt_eq lookup, nibbleAt_eq lookup']
  rcases Nat.lt_or_eq_of_le order with before | rfl
  · refine getNibble_le (below.starts _ (getElem_mem _)) (below.starts _ (getElem_mem _)) short ?_
    have sorted := pairwise_map.mp below.sorted
    exact pairwise_iff_getElem.mp sorted index later _ _ before
  · rfl

/-- The search finds the last position whose nibble is not greater. -/
theorem lastIndexOfNibble_spec {curNibble : Nibble} {loops i j : Nat} (order : i ≤ j)
    (inside : j < kvs.length) (enough : j - i ≤ loops)
    (low : nibbleAt kvs front.length i ≤ curNibble)
    (high : ∀ later, j < later → later < kvs.length → curNibble < nibbleAt kvs front.length later) :
    let last := lastIndexOfNibble kvs front.length curNibble loops i j
    i ≤ last ∧ last ≤ j ∧ nibbleAt kvs front.length last ≤ curNibble ∧
      ∀ later, last < later → later < kvs.length → curNibble < nibbleAt kvs front.length later := by
  induction loops generalizing i j with
  | zero =>
    obtain rfl : i = j := by omega
    exact ⟨le_rfl, le_rfl, low, high⟩
  | succ loops ih =>
    simp only [lastIndexOfNibble]
    by_cases more : i < j
    · rw [if_pos more]
      by_cases greater : nibbleAt kvs front.length (j - (j - i) / 2) > curNibble
      · rw [if_pos greater]
        have found := @ih i (j - (j - i) / 2 - 1) (by omega) (by omega) (by omega) low ?_
        · obtain ⟨first, second, third, fourth⟩ := found
          exact ⟨first, by omega, third, fourth⟩
        · intro later after before
          exact greater.trans_le (below.nibbleAt_le short (by omega) before)
      · rw [if_neg greater]
        obtain ⟨first, second, third, fourth⟩ := @ih (j - (j - i) / 2) j (by omega) inside
          (by omega) (not_lt.mp greater) high
        exact ⟨by omega, second, third, fourth⟩
    · rw [if_neg more]
      obtain rfl : i = j := by omega
      exact ⟨le_rfl, le_rfl, low, high⟩

end

end Search

/-- A part with equal nibbles in front of greater ones. -/
theorem Splits.cons {nibbleIdx : Nat} {first rest : KeyValues Value}
    {slices : List (KeyValues Value)} {curNibble : Nibble} (present : first ≠ [])
    (same : ∀ kv ∈ first, kv.1.getNibble nibbleIdx = curNibble)
    (greater : ∀ kv ∈ rest, curNibble < kv.1.getNibble nibbleIdx)
    (splits : Splits nibbleIdx rest slices) :
    Splits nibbleIdx (first ++ rest) (first :: slices) := by
  have head : first.firstNibble nibbleIdx = curNibble := by
    cases first with
    | nil => exact (present rfl).elim
    | cons kv first => exact same kv mem_cons_self
  have later : ∀ slice ∈ slices, curNibble < slice.firstNibble nibbleIdx := by
    intro slice member
    obtain ⟨nonempty, shape⟩ := splits.slice slice member
    cases slice with
    | nil => exact (nonempty rfl).elim
    | cons kv slice =>
      have inRest : kv ∈ rest := by
        have inSlice : kv ∈ kv :: slice := mem_cons_self
        rw [shape] at inSlice
        exact mem_of_mem_filter inSlice
      exact greater kv inRest
  refine ⟨?_, ?_, ?_⟩
  · rw [map_cons, nodup_cons]
    refine ⟨?_, splits.nodup⟩
    intro member
    obtain ⟨slice, inside, equal⟩ := mem_map.mp member
    have less := later slice inside
    rw [equal, head] at less
    exact lt_irrefl _ less
  · intro slice member
    rcases mem_cons.mp member with rfl | inside
    · refine ⟨present, ?_⟩
      rw [filter_append, head, filter_eq_self.mpr, filter_eq_nil_iff.mpr, append_nil]
      · intro kv inRest
        simpa using (greater kv inRest).ne'
      · intro kv inFirst
        simpa using same kv inFirst
    · obtain ⟨nonempty, shape⟩ := splits.slice slice inside
      refine ⟨nonempty, ?_⟩
      rw [filter_append, filter_eq_nil_iff.mpr, nil_append]
      · exact shape
      · intro kv inFirst
        rw [same kv inFirst]
        simpa using (later slice inside).ne
  · intro kv member
    rw [map_cons, mem_cons]
    rcases mem_append.mp member with inFirst | inRest
    · left
      rw [same kv inFirst, head]
    · exact .inr (splits.covers kv inRest)

section

variable (below : SortedBelow front kvs) (short : front.length < rootNibbleHeight)
include below short

theorem nibbleRangesFrom_splits {loops pos : Nat} (enough : kvs.length - pos ≤ loops) :
    Splits front.length (kvs.drop pos)
      ((nibbleRangesFrom kvs front.length loops pos).map fun range =>
        (kvs.drop range.1).take (range.2 - range.1 + 1)) := by
  have finished : ∀ {pos}, kvs.length ≤ pos → Splits front.length (kvs.drop pos) [] := by
    intro pos past
    rw [drop_eq_nil_of_le past]
    exact ⟨by simp, by simp, by simp⟩
  induction loops generalizing pos with
  | zero => exact finished (by omega)
  | succ loops ih =>
    rw [nibbleRangesFrom]
    by_cases more : pos < kvs.length
    · rw [if_pos more]
      have high : ∀ later, kvs.length - 1 < later → later < kvs.length →
            nibbleAt kvs front.length pos < nibbleAt kvs front.length later := by
        intro later after before
        omega
      obtain ⟨atLeast, atMost, low, above⟩ :=
        lastIndexOfNibble_spec below short (show pos ≤ kvs.length - 1 by omega)
          (show kvs.length - 1 < kvs.length by omega)
          (show kvs.length - 1 - pos ≤ kvs.length by omega) le_rfl high
      generalize
        lastIndexOfNibble kvs front.length (nibbleAt kvs front.length pos) kvs.length pos
          (kvs.length - 1) = last at atLeast atMost low above
      have parts : kvs.drop pos = (kvs.drop pos).take (last - pos + 1) ++ kvs.drop (last + 1) := by
        rw [show last + 1 = pos + (last - pos + 1) by omega, ← drop_drop, take_append_drop]
      have rest := @ih (last + 1) (by omega)
      have same : ∀ kv ∈ (kvs.drop pos).take (last - pos + 1),
            kv.1.getNibble front.length = nibbleAt kvs front.length pos := by
        intro kv member
        obtain ⟨index, lookup⟩ := mem_iff_getElem?.mp member
        rw [getElem?_take] at lookup
        split at lookup
        · rename_i inside
          rw [getElem?_drop] at lookup
          rw [← nibbleAt_eq lookup]
          apply le_antisymm
          · exact (below.nibbleAt_le short (by omega) (by omega)).trans low
          · exact below.nibbleAt_le short (by omega) (by omega)
        · cases lookup
      have greater : ∀ kv ∈ kvs.drop (last + 1),
            nibbleAt kvs front.length pos < kv.1.getNibble front.length := by
        intro kv member
        obtain ⟨index, lookup⟩ := mem_iff_getElem?.mp member
        rw [getElem?_drop] at lookup
        rw [← nibbleAt_eq lookup]
        exact above _ (by omega) (List.getElem?_eq_some_iff.mp lookup).1
      have present : (kvs.drop pos).take (last - pos + 1) ≠ [] := by
        intro nothing
        have lengths := congrArg length nothing
        rw [length_take, length_drop, length_nil] at lengths
        omega
      have whole := Splits.cons present same greater rest
      rw [← parts] at whole
      exact whole
    · rw [if_neg more]
      exact finished (by omega)

/-- The iterator splits keys below a path by the nibble behind it. -/
theorem nibbleSlices_spec :
    ∃ slices, kvs.nibbleSlices front.length = .ok slices ∧ Splits front.length kvs slices := by
  refine ⟨_, by rw [nibbleSlices, Fallible.require, if_pos short]; rfl, ?_⟩
  have splits := nibbleRangesFrom_splits below short (Nat.sub_le kvs.length 0)
  rwa [drop_zero] at splits

end

end KeyValues

end Diem
