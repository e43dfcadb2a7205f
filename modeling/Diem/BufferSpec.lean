import Diem.Buffer

namespace Diem

open Fallible (bind_eq_ok_iff expect expect_eq_ok_iff ok_bind)
open Function (update update_of_ne update_self)
open List Option Prod Buffer

namespace Buffer

/-!
# The buffer as a list

A buffer represents a list of keys with elements: the links, followed from the head,
visit the keys in the order of the list, and the map has no other entries.  The indices
of the entries increase along the links, so comparing indices compares places.
-/

variable {T : Type}

/-- The links from a cursor visit the items, with indices above a given one. -/
def Linked (map : HashValue → Option (LinkedItem T)) :
    Nat → Cursor → List (HashValue × T) → Prop
  | _, cursor, [] => cursor = none
  | low, cursor, (key, elem) :: rest =>
    cursor = some key ∧
    ∃ index next, map key = some { elem := some elem, index, next } ∧ low < index ∧
      Linked map index next rest

/-- The buffer holds exactly the items, in their order. -/
structure Represents (buffer : Buffer T) (items : List (HashValue × T)) : Prop where
  linked : Linked buffer.map 0 buffer.head items
  nodup : (items.map fst).Nodup
  only : ∀ key, key ∉ items.map fst → buffer.map key = none
  tail : buffer.tail = (items.map fst).getLast?
  bounded : ∀ key item, buffer.map key = some item → item.index ≤ buffer.count

variable {map map' : HashValue → Option (LinkedItem T)} {low : Nat} {cursor : Cursor}
  {items : List (HashValue × T)}

/-- The links only depend on the entries of the items. -/
theorem Linked.congr (linked : Linked map low cursor items)
    (same : ∀ key ∈ items.map fst, map' key = map key) : Linked map' low cursor items := by
  induction items generalizing low cursor with
  | nil => exact linked
  | cons item rest ih =>
    obtain ⟨isKey, index, next, entry, above, linkedRest⟩ := linked
    refine ⟨isKey, index, next, ?_, above, ?_⟩
    · rw [same item.1 (by simp), entry]
    · exact ih linkedRest fun key member => same key (by simp [member])

variable {key : HashValue} {before after : List (HashValue × T)}

/-- Following the links over a first part, whose indices stay below the rest. -/
theorem Linked.split (linked : Linked map low cursor (before ++ after)) :
    ∃ middle place, low ≤ middle ∧ Linked map middle place after ∧
      ∀ key elem, (key, elem) ∈ before → ∃ item, map key = some item ∧ item.index ≤ middle := by
  induction before generalizing low cursor with
  | nil => exact ⟨low, cursor, le_rfl, linked, by simp⟩
  | cons item rest ih =>
    obtain ⟨-, index, next, entry, above, linkedRest⟩ := linked
    obtain ⟨middle, place, notBelow, linkedAfter, below⟩ := ih linkedRest
    refine ⟨middle, place, above.le.trans notBelow, linkedAfter, ?_⟩
    intro key elem member
    rcases mem_cons.mp member with isFirst | inRest
    · cases isFirst
      exact ⟨_, entry, notBelow⟩
    · exact below key elem inRest

section

variable (linked : Linked map low cursor items)
include linked

theorem Linked.lookup {elem : T} (member : (key, elem) ∈ items) :
    ∃ index next, map key = some { elem := some elem, index, next } ∧ low < index := by
  obtain ⟨before, after, rfl⟩ := mem_iff_append.mp member
  obtain ⟨middle, place, notBelow, ⟨-, index, next, entry, above, -⟩, -⟩ := linked.split
  exact ⟨index, next, entry, notBelow.trans_lt above⟩

/-- A smaller bound is a bound. -/
theorem Linked.weaken {low' : Nat} (notAbove : low' ≤ low) : Linked map low' cursor items := by
  cases items with
  | nil => exact linked
  | cons item rest =>
    obtain ⟨isKey, index, next, entry, above, linkedRest⟩ := linked
    exact ⟨isKey, index, next, entry, notAbove.trans_lt above, linkedRest⟩

/-- Indices bound the number of items. -/
theorem Linked.length_le {bound : Nat} (notAbove : low ≤ bound)
    (bounded : ∀ key item, map key = some item → item.index ≤ bound) :
    low + items.length ≤ bound := by
  induction items generalizing low cursor with
  | nil => exact notAbove
  | cons item rest ih =>
    obtain ⟨-, index, next, entry, above, linkedRest⟩ := linked
    have restBound := ih linkedRest (bounded item.1 _ entry)
    rw [length_cons]
    omega

end

/-- Replacing the element of an entry replaces it in the list. -/
theorem Linked.replace {elem elem' : T}
    (linked : Linked map low cursor (before ++ (key, elem) :: after))
    (nodup : ((before ++ (key, elem) :: after).map fst).Nodup)
    (replaced : ∀ item, map key = some item → map' key = some { item with elem := some elem' })
    (same : ∀ other, other ≠ key → map' other = map other) :
    Linked map' low cursor (before ++ (key, elem') :: after) := by
  induction before generalizing low cursor with
  | nil =>
    obtain ⟨isKey, index, next, entry, above, linkedRest⟩ := linked
    refine ⟨isKey, index, next, replaced _ entry, above, ?_⟩
    refine linkedRest.congr fun other member => same other ?_
    rintro rfl
    simp only [nil_append, map_cons, nodup_cons] at nodup
    exact nodup.1 member
  | cons item rest ih =>
    obtain ⟨isKey, index, next, entry, above, linkedRest⟩ := linked
    simp only [cons_append, map_cons, nodup_cons] at nodup
    refine ⟨isKey, index, next, ?_, above, ih linkedRest nodup.2⟩
    rw [same item.1 ?_, entry]
    rintro isReplaced
    exact nodup.1 (by simp [isReplaced])

/-- Linking a new entry behind the last one. -/
theorem Linked.push {elem : T} {count : Nat} (linked : Linked map low cursor items)
    (nodup : (items.map fst).Nodup) (below : low < count)
    (bounded : ∀ other item, map other = some item → item.index < count)
    (pushed : map' key = some { elem := some elem, index := count, next := none })
    (last : ∀ place item, (items.map fst).getLast? = some place →
      map place = some item → map' place = some { item with next := some key })
    (same : ∀ other ∈ items.map fst,
      (items.map fst).getLast? ≠ some other → map' other = map other) :
    Linked map' low (cursor.or (some key)) (items ++ [(key, elem)]) := by
  induction items generalizing low cursor with
  | nil =>
    obtain rfl : cursor = none := linked
    exact ⟨rfl, count, none, pushed, below, rfl⟩
  | cons item rest ih =>
    obtain ⟨rfl, index, next, entry, above, linkedRest⟩ := linked
    simp only [map_cons, nodup_cons] at nodup
    cases rest with
    | nil =>
      obtain rfl : next = none := linkedRest
      refine ⟨rfl, index, some key, ?_, above, ?_⟩
      · exact last item.1 _ (by simp) entry
      · exact ⟨rfl, count, none, pushed, bounded _ _ entry, rfl⟩
    | cons second others =>
      have pushedRest := ih linkedRest nodup.2 (bounded _ _ entry) last
        (fun other member => same other (by simp_all))
      have isSecond : next = some second.1 := linkedRest.1
      refine ⟨rfl, index, next, ?_, above, ?_⟩
      · rw [same item.1 (by simp) ?_, entry]
        intro isLast
        exact nodup.1 (mem_of_getLast? isLast)
      · simpa [isSecond] using pushedRest

variable {buffer : Buffer T} {elem : T}
  {before after : List (HashValue × T)}

theorem new_represents : (new : Buffer T).Represents [] where
  linked := rfl
  nodup := nodup_nil
  only := fun _ _ => rfl
  tail := rfl
  bounded := by
    rintro key item ⟨⟩

theorem entry_of_lookup {item : LinkedItem T} (lookup : buffer.map key = some item) :
    buffer.entry (some key) = .ok (key, item) := by
  simp only [entry, expect, ok_bind, lookup]
  rfl

section

variable (represents : buffer.Represents items)
include represents

theorem Represents.get (member : (key, elem) ∈ items) : buffer.get (some key) = .ok elem := by
  obtain ⟨index, next, lookup, -⟩ := represents.linked.lookup member
  rw [Buffer.get, entry_of_lookup lookup]
  rfl

/-- An entry exists exactly at the keys of the items. -/
theorem Represents.isSome_iff : (buffer.map key).isSome ↔ key ∈ items.map fst := by
  constructor
  · intro found
    by_contra absent
    rw [represents.only key absent] at found
    cases found
  · intro member
    obtain ⟨⟨found, elem⟩, isMember, rfl⟩ := mem_map.mp member
    obtain ⟨index, next, lookup, -⟩ := represents.linked.lookup isMember
    simp [lookup]

theorem Represents.headCursor : buffer.headCursor = (items.map fst).head? := by
  cases items with
  | nil => exact represents.linked
  | cons item rest => exact represents.linked.1

/-- The entries after linking a new one behind the last one. -/
theorem Represents.linkTail (item : LinkedItem T) (fresh : key ∉ items.map fst) :
    ∃ linkedMap,
      linkTail (update buffer.map key (some item)) buffer.tail key = .ok linkedMap ∧
      linkedMap key = some item ∧
      (∀ last lastItem, (items.map fst).getLast? = some last →
        buffer.map last = some lastItem →
          linkedMap last = some { lastItem with next := some key }) ∧
      ∀ other, other ≠ key → (items.map fst).getLast? ≠ some other →
        linkedMap other = buffer.map other := by
  rw [represents.tail]
  cases isLast : (items.map fst).getLast? with
  | none =>
    refine ⟨_, rfl, update_self _ _ _, by simp, ?_⟩
    intro other different _
    exact update_of_ne different _ _
  | some last =>
    have isKey : last ∈ items.map fst := mem_of_getLast? isLast
    have different : last ≠ key := by
      rintro rfl
      exact fresh isKey
    obtain ⟨lastItem, lookup⟩ := isSome_iff_exists.mp (represents.isSome_iff.mpr isKey)
    have lookupAfter : update buffer.map key (some item) last = some lastItem := by
      rw [update_of_ne different, lookup]
    refine ⟨_, by
      simp only [Buffer.linkTail, lookupAfter, expect, ok_bind]
      rfl, ?_, ?_, ?_⟩
    · rw [update_of_ne different.symm, update_self]
    · rintro found foundItem ⟨⟩ isItem
      rw [lookup] at isItem
      cases isItem
      exact update_self _ _ _
    · intro other notKey notLast
      rw [update_of_ne (by rintro rfl; exact notLast rfl), update_of_ne notKey]

/-- Adding an element at the end. -/
theorem Represents.pushBack {hash : T → Fallible HashValue} (isHash : hash elem = .ok key)
    (fresh : key ∉ items.map fst) (fits : buffer.count + 1 < 2 ^ 64) :
    ∃ buffer', buffer.pushBack hash elem = .ok buffer' ∧
      buffer'.Represents (items ++ [(key, elem)]) ∧
      buffer'.count = buffer.count + 1 := by
  have counted : Word64.checkedAdd? buffer.count 1 = some (buffer.count + 1) :=
    Word64.checkedAdd?_eq_some_iff.mpr ⟨rfl, fits⟩
  obtain ⟨linkedMap, linked, pushed, last, unchanged⟩ := represents.linkTail
    { elem := some elem, index := buffer.count + 1, next := none } fresh
  let buffer' : Buffer T :=
    { map := linkedMap
      count := buffer.count + 1
      head := buffer.head.or (some key)
      tail := some key }
  refine ⟨buffer', ?_, ?_, rfl⟩
  · simp only [Buffer.pushBack, counted, isHash, expect, ok_bind, linked]
    rfl
  constructor
  case linked =>
    refine represents.linked.push represents.nodup (Nat.succ_pos _) ?_ pushed last ?_
    · intro other item isItem
      exact Nat.lt_succ_of_le (represents.bounded _ _ isItem)
    · intro other member notLast
      exact unchanged other (by rintro rfl; exact fresh member) notLast
  case nodup =>
    rw [map_append, nodup_append]
    refine ⟨represents.nodup, by simp, ?_⟩
    rintro other member _ isKey rfl
    simp only [map_cons, map_nil, mem_singleton] at isKey
    exact fresh (isKey ▸ member)
  case only =>
    intro other absent
    simp only [map_append, mem_append, not_or] at absent
    change linkedMap other = none
    rw [unchanged other (by simpa using absent.2) (fun isLast => absent.1 (mem_of_getLast? isLast))]
    exact represents.only other absent.1
  case tail =>
    simp [buffer']
  case bounded =>
    intro other item isItem
    change linkedMap other = some item at isItem
    by_cases isKey : other = key
    · rw [isKey, pushed] at isItem
      cases isItem
      exact le_rfl
    · by_cases isLast : (items.map fst).getLast? = some other
      · obtain ⟨lastItem, lookup⟩ :=
          isSome_iff_exists.mp (represents.isSome_iff.mpr (mem_of_getLast? isLast))
        have notAbove := represents.bounded _ _ lookup
        rw [last other lastItem isLast lookup] at isItem
        cases isItem
        exact Nat.le_succ_of_le notAbove
      · rw [unchanged other isKey isLast] at isItem
        exact Nat.le_succ_of_le (represents.bounded _ _ isItem)

end

/-- Removing the first element. -/
theorem Represents.popFront_cons (represents : buffer.Represents ((key, elem) :: after)) :
    ∃ buffer', buffer.popFront = .ok (some elem, buffer') ∧ buffer'.Represents after ∧
      buffer'.count = buffer.count := by
  obtain ⟨isHead, index, next, lookup, above, linkedRest⟩ := represents.linked
  have nodup := represents.nodup
  simp only [map_cons, nodup_cons] at nodup
  let popped : Buffer T :=
    { buffer with
      map := update buffer.map key none
      head := next
      tail := if next.isNone then none else buffer.tail }
  have removed : popped.map key = none := update_self _ _ _
  have unchanged : ∀ other, other ≠ key → popped.map other = buffer.map other :=
    fun other different => update_of_ne different _ _
  refine ⟨popped, ?_, ?_, rfl⟩
  · simp only [popFront, isHead, lookup, expect, ok_bind]
    rfl
  constructor
  case linked =>
    have linkedAfter : Linked popped.map index next after := linkedRest.congr fun other member =>
      unchanged other (by rintro rfl; exact nodup.1 member)
    exact linkedAfter.weaken (Nat.zero_le _)
  case nodup =>
    exact nodup.2
  case only =>
    intro other absent
    by_cases isKey : other = key
    · rw [isKey, removed]
    · rw [unchanged other isKey]
      exact represents.only other (by simp [isKey, absent])
  case tail =>
    change (if next.isNone then none else buffer.tail) = _
    cases after with
    | nil =>
      obtain rfl : next = none := linkedRest
      rfl
    | cons second others =>
      obtain rfl : next = some second.1 := linkedRest.1
      rw [if_neg (by simp), represents.tail]
      simp [getLast?_cons_cons]
  case bounded =>
    intro other item isItem
    by_cases isKey : other = key
    · rw [isKey, removed] at isItem
      cases isItem
    · rw [unchanged other isKey] at isItem
      exact represents.bounded _ _ isItem

variable {compare : T → Bool}

/-- The loop over the links searches the items. -/
theorem findLoop_linked {fuel : Nat} (linked : Linked buffer.map low cursor items)
    (enough : items.length ≤ fuel) :
    buffer.findLoop compare fuel cursor =
      .ok ((items.find? fun item => compare item.2).map fst) := by
  induction items generalizing low cursor fuel with
  | nil =>
    obtain rfl : cursor = none := linked
    cases fuel <;> rfl
  | cons item rest ih =>
    obtain ⟨rfl, index, next, lookup, -, linkedRest⟩ := linked
    cases fuel with
    | zero => simp at enough
    | succ fuel =>
      have found := entry_of_lookup lookup
      have searched := ih linkedRest (Nat.le_of_succ_le_succ enough)
      rw [find?_cons]
      simp only [findLoop, get, getNext, found, ok_bind, expect]
      cases compare item.2 with
      | true => rfl
      | false => exact searched

section

variable (represents : buffer.Represents (before ++ (key, elem) :: after))
include represents

/-- The element of one key is replaced. -/
theorem Represents.replace {elem' : T}
    (replaced :
      ∀ item, buffer.map key = some item → map' key = some { item with elem := some elem' })
    (same : ∀ other, other ≠ key → map' other = buffer.map other) :
    { buffer with map := map' }.Represents (before ++ (key, elem') :: after) := by
  have sameKeys : (before ++ (key, elem') :: after).map fst =
        (before ++ (key, elem) :: after).map fst := by
    simp
  obtain ⟨index, next, lookup, -⟩ :=
    represents.linked.lookup (mem_append_right before mem_cons_self)
  constructor
  case linked =>
    exact represents.linked.replace represents.nodup replaced same
  case nodup =>
    rw [sameKeys]
    exact represents.nodup
  case only =>
    intro other absent
    rw [sameKeys] at absent
    exact (same other (by rintro rfl; simp at absent)).trans (represents.only other absent)
  case tail =>
    rw [sameKeys]
    exact represents.tail
  case bounded =>
    intro other item isItem
    by_cases isKey : other = key
    · subst isKey
      have notAbove := represents.bounded _ _ lookup
      cases (replaced _ lookup).symm.trans isItem
      exact notAbove
    · exact represents.bounded _ _ ((same other isKey).symm.trans isItem)

/-- Taking an element out and putting another one in its place. -/
theorem Represents.take_set :
    ∃ taken, buffer.take (some key) = .ok (elem, taken) ∧
      ∀ elem', ∃ buffer', taken.set (some key) elem' = .ok buffer' ∧
        buffer'.Represents (before ++ (key, elem') :: after) ∧
        buffer'.count = buffer.count := by
  obtain ⟨index, next, lookup, -⟩ :=
    represents.linked.lookup (mem_append_right before mem_cons_self)
  let emptied : LinkedItem T := { elem := none, index, next }
  let taken : Buffer T := { buffer with map := update buffer.map key (some emptied) }
  refine ⟨taken, ?_, ?_⟩
  · rw [take, entry_of_lookup lookup]
    rfl
  intro elem'
  let filled : LinkedItem T := { elem := some elem', index, next }
  have takenLookup : taken.map key = some emptied := update_self _ _ _
  refine ⟨{ taken with map := update taken.map key (some filled) }, ?_, ?_, rfl⟩
  · rw [set, entry_of_lookup takenLookup]
    rfl
  refine represents.replace ?_ ?_
  · intro item isItem
    rw [lookup] at isItem
    cases isItem
    exact update_self _ _ _
  · intro other different
    simp [taken, update_of_ne different]

/-- The first place from a given one on whose element passes a test. -/
theorem Represents.findElemFrom (compare : T → Bool) :
    buffer.findElemFrom (some key) compare =
      .ok ((((key, elem) :: after).find? fun item => compare item.2).map fst) := by
  have isSome : (buffer.map key).isSome := represents.isSome_iff.mpr (by simp)
  obtain ⟨middle, place, -, linked, -⟩ := represents.linked.split
  obtain rfl : place = some key := linked.1
  have short := represents.linked.length_le (Nat.zero_le _) represents.bounded
  have enough : ((key, elem) :: after).length ≤ buffer.count := by
    rw [length_append] at short
    omega
  rw [Buffer.findElemFrom, if_neg (by simp [Buffer.exist, isSome])]
  exact findLoop_linked linked enough

/-- The place of a key from a given one on. -/
theorem Represents.findElemByKey (query : HashValue) :
    buffer.findElemByKey (some key) query =
      .ok (if query ∈ ((key, elem) :: after).map fst then some query
        else none) := by
  obtain ⟨middle, place, -, linked, below⟩ := represents.linked.split
  obtain ⟨-, index, next, lookup, above, linkedAfter⟩ := linked
  simp only [Buffer.findElemByKey, lookup, expect, ok_bind]
  by_cases member : query ∈ ((key, elem) :: after).map fst
  · rw [if_pos member]
    obtain ⟨⟨found, foundElem⟩, isMember, rfl⟩ := mem_map.mp member
    rcases mem_cons.mp isMember with isFirst | isAfter
    · cases isFirst
      simp [lookup]
      rfl
    · obtain ⟨foundIndex, foundNext, foundLookup, later⟩ := linkedAfter.lookup isAfter
      simp only [foundLookup]
      rw [if_pos later.le]
      rfl
  · rw [if_neg member]
    by_cases earlier : query ∈ before.map fst
    · obtain ⟨⟨found, foundElem⟩, isMember, rfl⟩ := mem_map.mp earlier
      obtain ⟨item, foundLookup, notAbove⟩ := below found foundElem isMember
      simp only [foundLookup]
      rw [if_neg (by omega)]
      rfl
    · rw [represents.only query (by simp_all)]
      rfl

theorem Represents.getNext : buffer.getNext (some key) = .ok (after.map fst).head? := by
  obtain ⟨middle, place, -, linked, -⟩ := represents.linked.split
  obtain ⟨-, index, next, lookup, -, linkedAfter⟩ := linked
  rw [Buffer.getNext, entry_of_lookup lookup, ok_bind]
  cases after with
  | nil => exact congrArg Except.ok linkedAfter
  | cons item rest => exact congrArg Except.ok linkedAfter.1

end

section

variable (represents : buffer.Represents items)
include represents

/-- The place of a key from the first item on. -/
theorem Represents.findElemByKey_head (query : HashValue) :
    buffer.findElemByKey buffer.headCursor query =
      .ok (if query ∈ items.map fst then some query else none) := by
  rw [represents.headCursor]
  cases items with
  | nil => rfl
  | cons item rest =>
    exact Represents.findElemByKey
      (show buffer.Represents ([] ++ item :: rest) from represents) query

/-- A search that starts at the first item or behind items that fail the test. -/
theorem Represents.findElemFrom_or_head
    (behind : ∀ key, cursor = some key → ∃ before elem after,
      items = before ++ (key, elem) :: after ∧ ∀ item ∈ before, compare item.2 = false) :
    buffer.findElemFrom (cursor.or buffer.headCursor) compare =
      .ok ((items.find? fun item => compare item.2).map fst) := by
  cases cursor with
  | some key =>
    obtain ⟨before, elem, after, rfl, fail⟩ := behind key rfl
    have noneBefore : (before.find? fun item => compare item.2) = none := by
      simpa using fun first second member => by
        simpa using fail (first, second) member
    rw [some_or, represents.findElemFrom, find?_append, noneBefore, none_or]
  | none =>
    rw [none_or, represents.headCursor]
    cases items with
    | nil => rfl
    | cons item rest =>
      exact Represents.findElemFrom (show buffer.Represents ([] ++ item :: rest) from represents)
        compare

/-- A search from an item on finds an item. -/
theorem Represents.findElemFrom_live (live : ∀ key, cursor = some key → key ∈ items.map fst) :
    ∃ found : Option (HashValue × T),
      buffer.findElemFrom (cursor.or buffer.headCursor) compare = .ok (found.map fst) ∧
      ∀ item, found = some item → item ∈ items ∧ compare item.2 = true := by
  cases cursor with
  | some key =>
    obtain ⟨⟨found, elem⟩, member, rfl⟩ := mem_map.mp (live key rfl)
    obtain ⟨before, after, rfl⟩ := append_of_mem member
    refine ⟨_, represents.findElemFrom compare, ?_⟩
    intro item isFound
    have passes := find?_some isFound
    exact ⟨mem_append_right before (mem_of_find?_eq_some isFound), passes⟩
  | none =>
    refine ⟨_, represents.findElemFrom_or_head (by simp), ?_⟩
    intro item isFound
    have passes := find?_some isFound
    exact ⟨mem_of_find?_eq_some isFound, passes⟩

end

/-!
## Properties of the elements

A property that every element has stays true under every operation that only puts in
elements that have it, whatever the links look like.
-/

/-- Every element of the entries has the property. -/
def AllElems (property : T → Prop) (map : HashValue → Option (LinkedItem T)) : Prop :=
  ∀ key item, map key = some item → ∀ elem, item.elem = some elem → property elem

variable {property : T → Prop}

theorem new_allElems : AllElems property (new : Buffer T).map := by
  rintro key item ⟨⟩

theorem AllElems.update {changed : Option (LinkedItem T)} (all : AllElems property map)
    (key : HashValue)
    (holds : ∀ item, changed = some item → ∀ elem, item.elem = some elem → property elem) :
    AllElems property (update map key changed) := by
  intro other item lookup elem isElem
  by_cases same : other = key
  · subst same
    rw [update_self] at lookup
    exact holds item lookup elem isElem
  · rw [update_of_ne same] at lookup
    exact all other item lookup elem isElem

section

variable (all : AllElems property buffer.map)
include all

theorem AllElems.entry {found : HashValue × LinkedItem T}
    (returned : buffer.entry cursor = .ok found) :
    ∀ elem, found.2.elem = some elem → property elem := by
  simp only [Buffer.entry, bind_eq_ok_iff, expect_eq_ok_iff] at returned
  obtain ⟨key, -, item, lookup, same⟩ := returned
  cases same
  exact all key item lookup

theorem AllElems.set (holds : property elem) (returned : buffer.set cursor elem = .ok buffer') :
    AllElems property buffer'.map := by
  simp only [Buffer.set, bind_eq_ok_iff] at returned
  obtain ⟨found, -, same⟩ := returned
  cases same
  refine all.update found.1 ?_
  rintro item ⟨⟩ stored ⟨⟩
  exact holds

theorem AllElems.take {taken : T × Buffer T} (returned : buffer.take cursor = .ok taken) :
    property taken.1 ∧ AllElems property taken.2.map := by
  simp only [Buffer.take, bind_eq_ok_iff, expect_eq_ok_iff] at returned
  obtain ⟨found, isEntry, elem, isElem, same⟩ := returned
  cases same
  refine ⟨all.entry isEntry elem isElem, all.update found.1 ?_⟩
  rintro item ⟨⟩ stored ⟨⟩

theorem AllElems.popFront {popped : Option T × Buffer T} (returned : buffer.popFront = .ok popped) :
    (∀ elem, popped.1 = some elem → property elem) ∧ AllElems property popped.2.map := by
  unfold Buffer.popFront at returned
  split at returned
  · cases returned
    exact ⟨by simp, all⟩
  · rename_i head isHead
    simp only [bind_eq_ok_iff, expect_eq_ok_iff] at returned
    obtain ⟨item, lookup, elem, isElem, same⟩ := returned
    cases same
    refine ⟨?_, all.update head (by simp)⟩
    rintro stored ⟨⟩
    exact all head item lookup elem isElem

end

theorem AllElems.linkTail {map' : HashValue → Option (LinkedItem T)} (all : AllElems property map)
    (returned : linkTail map cursor key = .ok map') : AllElems property map' := by
  unfold Buffer.linkTail at returned
  split at returned
  · cases returned
    exact all
  · rename_i last
    simp only [bind_eq_ok_iff, expect_eq_ok_iff] at returned
    obtain ⟨item, lookup, same⟩ := returned
    cases same
    refine all.update last ?_
    rintro changed ⟨⟩
    exact all last item lookup

theorem AllElems.pushBack {hash : T → Fallible HashValue} (all : AllElems property buffer.map)
    (holds : property elem) (returned : buffer.pushBack hash elem = .ok buffer') :
    AllElems property buffer'.map := by
  simp only [Buffer.pushBack, bind_eq_ok_iff] at returned
  obtain ⟨count, -, tHash, -, linkedMap, isLinked, same⟩ := returned
  cases same
  refine .linkTail (all.update tHash ?_) isLinked
  rintro item ⟨⟩ stored ⟨⟩
  exact holds

end Buffer

end Diem
