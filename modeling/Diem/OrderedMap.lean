import Mathlib.Order.Lattice
import Mathlib.Algebra.GroupWithZero.Nat
import Mathlib.Data.List.Pairwise
import Mathlib.Data.List.Nodup

namespace Diem

open Prod (fst)
open List

/-!
# Maps that iterate in key order

A map is a list of entries whose keys strictly increase, which is what iterating
an ordered tree map yields.  The order is a field of the structure, so every map
has one entry for a key and two maps with the same entries are the same map.
-/

/-- A finite map, given by its entries in strictly increasing key order. -/
structure OrderedMap (Key Value : Type) [LinearOrder Key] where
  entries : List (Key × Value)
  sorted : (entries.map fst).Pairwise (· < ·)
  deriving DecidableEq

theorem getElem?_concat_iff {Item : Type*} {items : List Item} {position : Nat} {item last : Item} :
    (items ++ [last])[position]? = some item ↔
      items[position]? = some item ∨ position = items.length ∧ item = last := by
  rw [getElem?_append]
  split
  · rename_i bound
    simp [Nat.ne_of_lt bound]
  · rename_i bound
    rw [getElem?_eq_none (Nat.le_of_not_lt bound)]
    simp only [getElem?_singleton]
    split
    · have isLast : position = items.length := by omega
      simp [isLast, eq_comm]
    · have beyond : position ≠ items.length := by omega
      simp [beyond]

namespace OrderedMap

variable {Key Value : Type} [LinearOrder Key]

/-- The value the first entry of a key carries. -/
def lookupEntry (key : Key) : List (Key × Value) → Option Value
  | [] => none
  | entry :: rest =>
    if entry.1 = key then
      some entry.2
    else
      lookupEntry key rest

/-- Put an entry at its place, replacing the entry of an equal key. -/
def insertEntry (key : Key) (value : Value) : List (Key × Value) → List (Key × Value)
  | [] => [(key, value)]
  | entry :: rest =>
    if key < entry.1 then
      (key, value) :: entry :: rest
    else if key = entry.1 then
      (key, value) :: rest
    else
      entry :: insertEntry key value rest

variable {key : Key} {value : Value} {items : List (Key × Value)}

/-- The keys after an insertion are the old ones and the inserted one. -/
theorem mem_keys_insertEntry {query : Key} :
    query ∈ (insertEntry key value items).map fst ↔
      query = key ∨ query ∈ items.map fst := by
  induction items with
  | nil => simp [insertEntry]
  | cons entry rest ih =>
    unfold insertEntry
    split
    · simp
    · split
      · rename_i sameKey
        simp [sameKey]
      · simp only [map_cons, mem_cons, ih]
        tauto

/-- Insertion keeps the keys strictly increasing. -/
theorem insertEntry_sorted (key : Key) (value : Value)
    (sorted : (items.map fst).Pairwise (· < ·)) :
    ((insertEntry key value items).map fst).Pairwise (· < ·) := by
  induction items with
  | nil => simp [insertEntry]
  | cons entry rest ih =>
    rw [map_cons, pairwise_cons] at sorted
    unfold insertEntry
    split
    · rename_i keyFirst
      simp only [map_cons, pairwise_cons, mem_cons]
      refine ⟨?_, sorted⟩
      rintro later (isEntry | inRest)
      · exact isEntry ▸ keyFirst
      · exact keyFirst.trans (sorted.1 later inRest)
    · rename_i notFirst
      split
      · rename_i sameKey
        simpa [sameKey] using sorted
      · rename_i differs
        have entryFirst : entry.1 < key := lt_of_le_of_ne (not_lt.mp notFirst) (.symm differs)
        rw [map_cons, pairwise_cons]
        refine ⟨?_, ih sorted.2⟩
        intro later member
        rcases mem_keys_insertEntry.mp member with isKey | inRest
        · exact isKey ▸ entryFirst
        · exact sorted.1 later inRest

/-- A lookup after an insertion sees the inserted value at its key only. -/
theorem lookupEntry_insertEntry (key query : Key) (value : Value) (items : List (Key × Value)) :
    lookupEntry query (insertEntry key value items) =
      if key = query then some value else lookupEntry query items := by
  induction items with
  | nil => simp [insertEntry, lookupEntry]
  | cons entry rest ih =>
    unfold insertEntry
    split
    · simp [lookupEntry]
    · split
      · rename_i sameKey
        by_cases found : key = query
        · simp [lookupEntry, found]
        · simp [lookupEntry, found, ← sameKey]
      · rename_i differs
        by_cases found : key = query
        · have entryMisses : entry.1 ≠ query := by
            intro entryHits
            exact differs (found.trans entryHits.symm)
          rw [lookupEntry, if_neg entryMisses, ih]
          simp [found]
        · simp [lookupEntry, ih, found]

/-- A lookup in two lists, one after the other. -/
theorem lookupEntry_append (key : Key) (first second : List (Key × Value)) :
    lookupEntry key (first ++ second) = (lookupEntry key first).or (lookupEntry key second) := by
  induction first with
  | nil => simp [lookupEntry]
  | cons entry rest ih =>
    by_cases found : entry.1 = key
    · simp [lookupEntry, found]
    · simp [lookupEntry, found, ih]

theorem lookupEntry_ne_none (member : (key, value) ∈ items) : lookupEntry key items ≠ none := by
  induction items with
  | nil => cases member
  | cons entry rest ih =>
    unfold lookupEntry
    split
    · simp
    · rename_i different
      rcases mem_cons.mp member with isEntry | inRest
      · exact (different (isEntry ▸ rfl)).elim
      · exact ih inRest

/-- If no key occurs twice a lookup finds exactly the entries of the list. -/
theorem lookupEntry_eq_some_iff_of_nodup (nodup : (items.map fst).Nodup) :
    lookupEntry key items = some value ↔ (key, value) ∈ items := by
  induction items with
  | nil => simp [lookupEntry]
  | cons entry rest ih =>
    rw [map_cons, nodup_cons] at nodup
    unfold lookupEntry
    by_cases found : entry.1 = key
    · rw [if_pos found]
      constructor
      · intro sameValue
        have entryShape : entry = (key, value) := Prod.ext found (Option.some.inj sameValue)
        simp [entryShape]
      · intro member
        rcases mem_cons.mp member with isEntry | inRest
        · simp [← isEntry]
        · rw [found] at nodup
          exact (nodup.1 (mem_map_of_mem (f := fst) inRest)).elim
    · rw [if_neg found, ih nodup.2]
      constructor
      · intro inRest
        exact mem_cons_of_mem entry inRest
      · intro member
        rcases mem_cons.mp member with isEntry | inRest
        · exact (found (isEntry ▸ rfl)).elim
        · exact inRest

theorem lookupEntry_eq_some_iff (sorted : (items.map fst).Pairwise (· < ·)) :
    lookupEntry key items = some value ↔ (key, value) ∈ items :=
  lookupEntry_eq_some_iff_of_nodup (sorted.imp fun increasing => increasing.ne)

def empty : OrderedMap Key Value where
  entries := []
  sorted := .nil

variable (items : OrderedMap Key Value)

/-- The value stored for a key. -/
def get? (key : Key) : Option Value :=
  lookupEntry key items.entries

/-- Store a value for a key, replacing the one stored before. -/
def insert (key : Key) (value : Value) : OrderedMap Key Value where
  entries := insertEntry key value items.entries
  sorted := insertEntry_sorted key value items.sorted

/-- Store a value for a key that has none, and keep the stored one otherwise. -/
def orInsert (key : Key) (value : Value) : OrderedMap Key Value :=
  match items.get? key with
  | some _ => items
  | none => items.insert key value

/-- Keep the entries that satisfy a test. -/
def filter (keep : Key × Value → Bool) : OrderedMap Key Value where
  entries := items.entries.filter keep
  sorted := items.sorted.sublist (filter_sublist.map fst)

/-- Forget a key. -/
def erase (key : Key) : OrderedMap Key Value :=
  items.filter fun entry => entry.1 ≠ key

/-- Store entries one after the other. -/
def insertAll (entries : List (Key × Value)) : OrderedMap Key Value :=
  entries.foldl (fun items entry => items.insert entry.1 entry.2) items

/-- The keys in increasing order. -/
def keys : List Key := items.entries.map fst

/-- The values in the order of their keys. -/
def values : List Value := items.entries.map Prod.snd

def size : Nat := items.entries.length

/-- Whether the map has no entry. -/
def isEmpty : Bool := items.entries.isEmpty

theorem get?_eq_some_iff {items : OrderedMap Key Value} :
    items.get? key = some value ↔ (key, value) ∈ items.entries :=
  lookupEntry_eq_some_iff items.sorted

@[simp] theorem get?_empty (key : Key) : (empty : OrderedMap Key Value).get? key = none := rfl

theorem get?_insert (key query : Key) (value : Value) :
    (items.insert key value).get? query =
      if key = query then some value else items.get? query :=
  lookupEntry_insertEntry key query value items.entries

/-- A value read after `orInsert` was stored before or is the offered one. -/
theorem get?_orInsert_cases {items : OrderedMap Key Value} {query : Key} {found : Value}
    (lookup : (items.orInsert key value).get? query = some found) :
    items.get? query = some found ∨ (query = key ∧ found = value) := by
  unfold orInsert at lookup
  split at lookup
  · exact .inl lookup
  · rw [get?_insert] at lookup
    split at lookup
    · rename_i sameKey
      exact Or.inr ⟨sameKey.symm, (Option.some.inj lookup).symm⟩
    · exact .inl lookup

theorem get?_filter_eq_some_iff {items : OrderedMap Key Value} {keep : Key × Value → Bool} :
    (items.filter keep).get? key = some value ↔
      items.get? key = some value ∧ keep (key, value) = true := by
  rw [get?_eq_some_iff, get?_eq_some_iff]
  exact mem_filter

/-- Two maps that store the same are the same. -/
theorem ext_get? {first second : OrderedMap Key Value}
    (same : ∀ key, first.get? key = second.get? key) : first = second := by
  have entries : first.entries = second.entries := by
    have nodup : ∀ items : OrderedMap Key Value, items.entries.Nodup := by
      intro items
      exact .of_map fst (items.sorted.imp fun increasing => increasing.ne)
    have strict :
        ∀ items : OrderedMap Key Value, items.entries.Pairwise fun one two => one.1 < two.1 :=
      fun items => pairwise_map.mp items.sorted
    refine List.Perm.eq_of_pairwise ?_ (strict first) (strict second) ?_
    · intro one two _ _ less greater
      exact (less.asymm greater).elim
    · rw [perm_ext_iff_of_nodup (nodup first) (nodup second)]
      rintro ⟨key, value⟩
      rw [← get?_eq_some_iff, ← get?_eq_some_iff, same key]
  cases first
  cases second
  cases entries
  rfl

/-- A lookup after a removal. -/
theorem get?_erase (key query : Key) :
    (items.erase key).get? query =
      if key = query then none else items.get? query := by
  by_cases same : key = query
  · rw [if_pos same, Option.eq_none_iff_forall_ne_some]
    intro value found
    rw [erase, get?_filter_eq_some_iff] at found
    simp [same] at found
  · rw [if_neg same]
    ext value
    rw [erase, get?_filter_eq_some_iff]
    simp [Ne.symm same]

/-- The last entry of a key counts. -/
theorem get?_insertAll (entries : List (Key × Value)) (key : Key) :
    (items.insertAll entries).get? key = (lookupEntry key entries.reverse).or (items.get? key) := by
  induction entries generalizing items with
  | nil => simp [insertAll, lookupEntry]
  | cons entry rest ih =>
    have step := ih (items.insert entry.1 entry.2)
    rw [get?_insert] at step
    rw [insertAll, foldl_cons, ← insertAll, step, reverse_cons, lookupEntry_append]
    by_cases found : entry.1 = key
    · cases lookupEntry key rest.reverse <;> simp [lookupEntry, found]
    · simp [lookupEntry, found]

/-- Storing all entries of another map. -/
theorem get?_insertAll_entries (items other : OrderedMap Key Value) (key : Key) :
    (items.insertAll other.entries).get? key = (other.get? key).or (items.get? key) := by
  have nodup : (other.entries.map fst).Nodup :=
    other.sorted.imp fun increasing => increasing.ne
  have reversed : lookupEntry key other.entries.reverse = other.get? key := by
    ext value
    rw [lookupEntry_eq_some_iff_of_nodup, mem_reverse, get?_eq_some_iff]
    rw [map_reverse]
    exact nodup_reverse.mpr nodup
  rw [get?_insertAll, reversed]

theorem keys_nodup : items.keys.Nodup :=
  items.sorted.imp fun increasing => increasing.ne

theorem mem_keys_iff {items : OrderedMap Key Value} :
    key ∈ items.keys ↔ ∃ value, items.get? key = some value := by
  simp only [keys, mem_map, get?_eq_some_iff]
  constructor
  · rintro ⟨entry, member, rfl⟩
    exact ⟨entry.2, member⟩
  · rintro ⟨value, member⟩
    exact ⟨(key, value), member, rfl⟩

theorem mem_values_iff {items : OrderedMap Key Value} :
    value ∈ items.values ↔ ∃ key, items.get? key = some value := by
  simp only [values, mem_map, get?_eq_some_iff]
  constructor
  · rintro ⟨entry, member, rfl⟩
    exact ⟨entry.1, member⟩
  · rintro ⟨key, member⟩
    exact ⟨(key, value), member, rfl⟩

@[simp] theorem length_keys : items.keys.length = items.size := by
  simp [keys, size]

end OrderedMap

end Diem
