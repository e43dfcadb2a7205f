import Diem.OrderedMap

namespace Diem

open OrderedMap

/-!
# Sets ordered by a rank

A tree set orders its keys by a comparison that may look at a part of a key only; keys of
equal rank count as the same key, and the one that came first stays.
-/

/-- A set whose elements have distinct ranks. -/
structure RankedSet {Key Rank : Type} [LinearOrder Rank] (rank : Key → Rank) where
  byRank : OrderedMap Rank Key
  ranked : ∀ {position key}, byRank.get? position = some key → rank key = position

namespace RankedSet

variable {Key Rank : Type} [LinearOrder Rank] {rank : Key → Rank}

/-- The set without keys. -/
def empty : RankedSet rank where
  byRank := .empty
  ranked := nofun

variable (items : RankedSet rank)

/-- The keys in increasing order. -/
def keys : List Key := items.byRank.values

/-- The number of keys. -/
def size : Nat := items.byRank.size

/-- Add a key, unless one of the same rank is there. -/
def insert (key : Key) : RankedSet rank where
  byRank := items.byRank.orInsert (rank key) key
  ranked := by
    intro position found lookup
    rcases OrderedMap.get?_orInsert_cases lookup with stored | ⟨rfl, rfl⟩
    · exact items.ranked stored
    · rfl

/-- Keep the keys that pass a test. -/
def filter (keep : Key → Bool) : RankedSet rank where
  byRank := items.byRank.filter fun entry => keep entry.2
  ranked := by
    intro position found lookup
    exact items.ranked (get?_filter_eq_some_iff.mp lookup).1

/-- Remove the key of the same rank. -/
def remove (key : Key) : RankedSet rank where
  byRank := items.byRank.erase (rank key)
  ranked := by
    intro position found lookup
    exact items.ranked (get?_filter_eq_some_iff.mp lookup).1

instance : Membership Key (RankedSet rank) where
  mem items key := items.byRank.get? (rank key) = some key

variable {items : RankedSet rank} {key : Key}

theorem mem_def : key ∈ items ↔ items.byRank.get? (rank key) = some key := Iff.rfl

theorem mem_of_get? {position : Rank} (found : items.byRank.get? position = some key) :
    key ∈ items := by
  rw [mem_def, items.ranked found]
  exact found

@[simp] theorem not_mem_empty (key : Key) : key ∉ (empty : RankedSet rank) := nofun

variable {query : Key}

/-- What is in the set after an insertion, if no other key has the rank. -/
theorem mem_insert (alone : ∀ other ∈ items, rank other = rank key → other = key) :
    query ∈ items.insert key ↔ query = key ∨ query ∈ items := by
  change (items.byRank.orInsert (rank key) key).get? (rank query) = some query ↔ _
  rw [OrderedMap.orInsert]
  cases found : items.byRank.get? (rank key) with
  | some other =>
    have same : other = key := alone other (mem_of_get? found) (items.ranked found)
    subst same
    constructor
    · exact .inr
    · rintro (rfl | member)
      · exact found
      · exact member
  | none =>
    rw [OrderedMap.get?_insert]
    split
    · rename_i sameRank
      rw [Option.some.injEq]
      constructor
      · rintro rfl
        exact .inl rfl
      · rintro (rfl | member)
        · rfl
        · rw [mem_def, ← sameRank, found] at member
          cases member
    · rename_i otherRank
      constructor
      · exact .inr
      · rintro (rfl | member)
        · exact (otherRank rfl).elim
        · exact member

theorem mem_remove : query ∈ items.remove key ↔ query ∈ items ∧ rank query ≠ rank key := by
  rw [mem_def, remove, OrderedMap.get?_erase]
  split
  · rename_i same
    exact iff_of_false nofun fun both => both.2 same.symm
  · rename_i other
    exact (and_iff_left (.symm other)).symm

theorem mem_filter {keep : Key → Bool} :
    query ∈ items.filter keep ↔ query ∈ items ∧ keep query = true :=
  get?_filter_eq_some_iff

theorem mem_keys : key ∈ items.keys ↔ key ∈ items := by
  rw [keys, values, List.mem_map]
  constructor
  · rintro ⟨⟨position, stored⟩, member, rfl⟩
    exact mem_of_get? (get?_eq_some_iff.mpr member)
  · intro member
    exact ⟨(rank key, key), get?_eq_some_iff.mp member, rfl⟩

theorem map_rank_keys (items : RankedSet rank) : items.keys.map rank = items.byRank.keys := by
  rw [keys, values, OrderedMap.keys, List.map_map]
  refine List.map_congr_left ?_
  rintro ⟨position, key⟩ member
  exact items.ranked (get?_eq_some_iff.mpr member)

theorem pairwise_keys (items : RankedSet rank) :
    items.keys.Pairwise fun first second => rank first < rank second := by
  rw [← List.pairwise_map, map_rank_keys]
  exact items.byRank.sorted

theorem nodup_keys (items : RankedSet rank) : items.keys.Nodup :=
  items.pairwise_keys.imp fun less same => (same ▸ less).false

theorem length_keys (items : RankedSet rank) : items.keys.length = items.size := by
  rw [keys, values, List.length_map]
  rfl

end RankedSet

end Diem
