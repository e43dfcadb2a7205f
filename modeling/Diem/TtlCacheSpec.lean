import Diem.MempoolAgreement

namespace Diem.CoreMempool

open List OrderedMap

/-!
# The cache with expiration

The entries of the cache are in one map, and their keys in another one by expiration time.
Entries that expire at the same time share one place there: the last one takes it, and the
others are never collected.  An entry whose expiration the clock cannot express is not stored,
although room was made for it.
-/

section Cache

variable {Key Value : Type} [LinearOrder Key]

/-- The calls of a cache; an insertion reads the clock. -/
inductive TtlCacheCall (Key Value : Type)
  | insert (now : Nat) (key : Key) (value : Value)
  | get (key : Key)
  | remove (key : Key)
  | gc (gcTime : Nat)

namespace TtlCache

variable (cache : TtlCache Key Value)

/-- The cache after a call. -/
def call : TtlCacheCall Key Value → TtlCache Key Value
  | .insert now key value => cache.insert now key value
  | .get _ => cache
  | .remove key => (cache.remove key).2
  | .gc gcTime => cache.gc gcTime

/-- The cache after calls. -/
def run (calls : List (TtlCacheCall Key Value)) : TtlCache Key Value :=
  calls.foldl call cache

/-- The place that an insertion frees: that of its own key, or of an evicted one. -/
def dropped (key : Key) : Option (Nat × Key) :=
  match cache.data.get? key with
  | some info => some (info.2, key)
  | none => if cache.data.size = cache.capacity then cache.ttlIndex.entries.head? else none

/-- The call takes the entry of a key: it is replaced, removed, evicted or expired. -/
def Forgets (key : Key) : TtlCacheCall Key Value → Prop
  | .insert _ other _ => other = key ∨ (cache.dropped other).map Prod.snd = some key
  | .get _ => False
  | .remove other => other = key
  | .gc gcTime => ∃ value time, cache.data.get? key = some (value, time) ∧ time < gcTime

/-- The inserted entry has a time of expiration, and no other entry that stays expires then. -/
def Fresh : TtlCacheCall Key Value → Prop
  | .insert now key value =>
    now + cache.defaultTimeout < systemTimeEnd ∧
      ∀ other entry, cache.data.get? other = some (entry, now + cache.defaultTimeout) →
        cache.Forgets other (.insert now key value)
  | _ => True

theorem fresh_insert_iff {now : Nat} {key : Key} {value : Value} :
    cache.Fresh (.insert now key value) ↔ now + cache.defaultTimeout < systemTimeEnd ∧
      ∀ place ∈ cache.data.entries, place.2.2 = now + cache.defaultTimeout →
        key = place.1 ∨ (cache.dropped key).map Prod.snd = some place.1 := by
  refine and_congr_right fun _ => ⟨fun alone place member same => ?_, ?_⟩
  · exact alone place.1 place.2.1 (get?_eq_some_iff.mpr (same ▸ member))
  · intro alone other entry found
    exact alone _ (get?_eq_some_iff.mp found) rfl

instance (call : TtlCacheCall Key Value) : Decidable (cache.Fresh call) :=
  match call with
  | .insert _ _ _ => decidable_of_iff _ cache.fresh_insert_iff.symm
  | .get _ => .isTrue trivial
  | .remove _ => .isTrue trivial
  | .gc _ => .isTrue trivial

/-- The latest calls first: the last value of a key that no later call has taken. -/
def LastInsert (key : Key) (value : Value) : List (TtlCacheCall Key Value) → Prop
  | [] => False
  | call :: earlier =>
    (∃ now, call = .insert now key value) ∨
      (LastInsert key value earlier ∧ ¬ (cache.run earlier.reverse).Forgets key call)

/-- What is promised of a cache after calls. -/
structure Promise (calls : List (TtlCacheCall Key Value)) : Prop where
  bounded : (cache.run calls).data.size ≤ cache.capacity
  index : ∀ time key, (cache.run calls).ttlIndex.get? time = some key ↔
    ∃ value, (cache.run calls).data.get? key = some (value, time)
  get :
    ∀ key value, (cache.run calls).get key = some value ↔ cache.LastInsert key value calls.reverse
  gc : ∀ gcTime key entry, ((cache.run calls).gc gcTime).data.get? key = some entry ↔
    (cache.run calls).data.get? key = some entry ∧ gcTime ≤ entry.2

variable {cache} {key other : Key} {value : Value}
  {now time : Nat}

/-!
## Insertions
-/

theorem makeRoom_keeps :
    (cache.makeRoom key).capacity = cache.capacity ∧
      (cache.makeRoom key).defaultTimeout = cache.defaultTimeout := by
  rw [makeRoom]
  cases cache.data.get? key with
  | some info => exact ⟨rfl, rfl⟩
  | none =>
    dsimp only
    split
    · cases cache.ttlIndex.entries.head? <;> exact ⟨rfl, rfl⟩
    · exact ⟨rfl, rfl⟩

section

variable (fits : now + cache.defaultTimeout < systemTimeEnd)
include fits

theorem insert_of_fits :
    cache.insert now key value =
      { cache.makeRoom key with
        ttlIndex := (cache.makeRoom key).ttlIndex.insert (now + cache.defaultTimeout) key
        data := (cache.makeRoom key).data.insert key (value, now + cache.defaultTimeout) } := by
  rw [insert, makeRoom_keeps.2, checkedAdd?, if_pos fits]
  simp only [makeRoom_keeps.2]

theorem get?_insert :
    (cache.insert now key value).data.get? other =
      if key = other then some (value, now + cache.defaultTimeout)
      else if (cache.dropped key).map Prod.snd = some other then none
      else cache.data.get? other := by
  rw [insert_of_fits fits, OrderedMap.get?_insert, makeRoom, dropped]
  by_cases same : key = other
  · simp [same]
  · cases cache.data.get? key with
    | some info => simp [same]
    | none =>
      by_cases full : cache.data.size = cache.capacity
      · cases cache.ttlIndex.entries.head? <;> simp [same, full, get?_erase]
      · simp [same, full]

theorem index_insert :
    (cache.insert now key value).ttlIndex.get? time =
      if now + cache.defaultTimeout = time then some key
      else if (cache.dropped key).map Prod.fst = some time then none
      else cache.ttlIndex.get? time := by
  rw [insert_of_fits fits, OrderedMap.get?_insert, makeRoom, dropped]
  cases cache.data.get? key with
  | some info => simp [get?_erase]
  | none =>
    by_cases full : cache.data.size = cache.capacity
    · cases cache.ttlIndex.entries.head? <;> simp [full, get?_erase]
    · simp [full]

end

/-- Without a time of expiration the key has lost its place in the index, or is not stored. -/
theorem insert_of_not_fits (late : ¬ now + cache.defaultTimeout < systemTimeEnd) :
    (cache.insert now key value).get key = none ∨
      ∃ info, (cache.insert now key value).data.get? key = some info ∧
        (cache.insert now key value).ttlIndex.get? info.2 = none := by
  rw [insert, makeRoom_keeps.2, checkedAdd?, if_neg late]
  cases found : cache.data.get? key with
  | some info =>
    refine .inr ⟨info, ?_⟩
    simp [makeRoom, found, get?_erase]
  | none =>
    left
    rw [get, makeRoom, found]
    dsimp only
    split
    · cases cache.ttlIndex.entries.head? <;> simp [found, get?_erase]
    · rw [found, Option.map_none]

variable {data : OrderedMap Key (Value × Nat)}

theorem get?_foldl_erase (keys : List Key) (key : Key) :
    (keys.foldl (fun data key => data.erase key) data).get? key =
      if key ∈ keys then none else data.get? key := by
  induction keys generalizing data with
  | nil => simp
  | cons first keys ih =>
    rw [foldl_cons, ih, get?_erase]
    by_cases member : key ∈ keys
    · simp [member]
    · simp [member, eq_comm]

/-- The cached keys are among some keys. -/
theorem size_le (keys : List Key) (subset : ∀ key entry, data.get? key = some entry → key ∈ keys) :
    data.size ≤ keys.length := by
  rw [← length_keys]
  refine length_le_of_subset data.keys_nodup fun key member => ?_
  obtain ⟨entry, found⟩ := mem_keys_iff.mp member
  exact subset key entry found

/-!
## Runs
-/

/-- The index has every entry at its expiration time. -/
structure Exact (cache : TtlCache Key Value) (capacity : Nat) : Prop where
  same : cache.capacity = capacity
  positive : 0 < capacity
  bounded : cache.data.size ≤ capacity
  index : ∀ time key, cache.ttlIndex.get? time = some key ↔
    ∃ value, cache.data.get? key = some (value, time)

section

variable {capacity : Nat} (exact : cache.Exact capacity)
include exact

theorem Exact.unique {entry : Value} (first : cache.data.get? key = some (value, time))
    (second : cache.data.get? other = some (entry, time)) : key = other := by
  have found := (exact.index time key).mpr ⟨value, first⟩
  rw [(exact.index time other).mpr ⟨entry, second⟩] at found
  cases found
  rfl

theorem Exact.get?_gc {gcTime : Nat} {entry : Value × Nat} :
    (cache.gc gcTime).data.get? key = some entry ↔
      cache.data.get? key = some entry ∧ gcTime ≤ entry.2 := by
  have expired : key ∈ (cache.ttlIndex.filter fun entry => entry.1 < gcTime).values ↔
        ∃ value time, cache.data.get? key = some (value, time) ∧ time < gcTime := by
    rw [mem_values_iff, exists_comm]
    simp only [get?_filter_eq_some_iff, decide_eq_true_iff, exact.index, exists_and_right]
  rw [TtlCache.gc, get?_foldl_erase]
  split
  · rename_i member
    obtain ⟨value, time, found, dead⟩ := expired.mp member
    rw [found]
    grind
  · rename_i alive
    rw [iff_self_and]
    intro found
    exact not_lt.mp fun dead => alive (expired.mpr ⟨_, _, found, dead⟩)

theorem Exact.dropped (isDropped : cache.dropped key = some (time, other)) :
    ∃ value, cache.data.get? other = some (value, time) := by
  rw [TtlCache.dropped] at isDropped
  cases found : cache.data.get? key with
  | some info =>
    rw [found] at isDropped
    cases isDropped
    exact ⟨info.1, found⟩
  | none =>
    rw [found] at isDropped
    dsimp only at isDropped
    split at isDropped
    · exact (exact.index time other).mp (get?_eq_some_iff.mpr (mem_of_head? isDropped))
    · cases isDropped

/-- An insertion frees the place of an entry exactly if it takes the entry. -/
theorem Exact.dropped_iff (key : Key) (found : cache.data.get? other = some (value, time)) :
    (cache.dropped key).map Prod.fst = some time ↔
      (cache.dropped key).map Prod.snd = some other := by
  cases shape : cache.dropped key with
  | none => simp
  | some place =>
    obtain ⟨freed, evicted⟩ := place
    obtain ⟨entry, there⟩ := exact.dropped shape
    simp only [Option.map_some, Option.some.injEq]
    constructor
    · rintro rfl
      exact exact.unique there found
    · rintro rfl
      rw [found] at there
      cases there
      rfl

theorem Exact.size_le_of_subset
    (subset : ∀ key entry, data.get? key = some entry → cache.data.get? key = some entry) :
    data.size ≤ capacity := by
  refine (size_le cache.data.keys fun key entry found => ?_).trans ?_
  · exact mem_keys_iff.mpr ⟨entry, subset key entry found⟩
  · rw [length_keys]
    exact exact.bounded

theorem Exact.size_lt_of_dropped (none : cache.dropped key = none) :
    cache.data.size < capacity := by
  refine lt_of_le_of_ne exact.bounded fun full => ?_
  rw [TtlCache.dropped] at none
  split at none
  · cases none
  · rw [if_pos (full.trans exact.same.symm), head?_eq_none_iff] at none
    have some : 0 < cache.data.entries.length := exact.positive.trans_eq full.symm
    obtain ⟨entry, member⟩ := exists_mem_of_length_pos some
    have there := (exact.index entry.2.2 entry.1).mpr ⟨entry.2.1, get?_eq_some_iff.mpr member⟩
    rw [get?_eq_some_iff, none] at there
    cases there

theorem Exact.size_insert_le (fits : now + cache.defaultTimeout < systemTimeEnd) :
    (cache.insert now key value).data.size ≤ capacity := by
  cases shape : cache.dropped key with
  | none =>
    have room := exact.size_lt_of_dropped shape
    rw [← length_keys] at room
    refine (size_le (key :: cache.data.keys) fun other entry found => ?_).trans room
    rw [get?_insert fits, shape] at found
    rw [mem_cons, mem_keys_iff]
    grind
  | some place =>
    obtain ⟨freed, evicted⟩ := place
    obtain ⟨entry, there⟩ := exact.dropped shape
    have member : evicted ∈ cache.data.keys := mem_keys_iff.mpr ⟨_, there⟩
    have room := length_erase_add_one member
    rw [length_keys] at room
    refine (size_le (key :: cache.data.keys.erase evicted) ?_).trans (room.trans_le exact.bounded)
    intro other entry found
    rw [get?_insert fits, shape] at found
    rw [mem_cons, cache.data.keys_nodup.mem_erase_iff, mem_keys_iff]
    grind

theorem Exact.insert (fresh : cache.Fresh (.insert now key value)) :
    (cache.insert now key value).Exact capacity := by
  obtain ⟨fits, alone⟩ := fresh
  refine ⟨?_, exact.positive, exact.size_insert_le fits, fun time other => ?_⟩
  · rw [insert_of_fits fits]
    exact makeRoom_keeps.1.trans exact.same
  rw [index_insert fits, get?_insert fits]
  by_cases expires : now + cache.defaultTimeout = time
  · -- the entry takes the place at its time
    subst expires
    rw [if_pos rfl]
    constructor
    · rintro ⟨⟩
      exact ⟨value, if_pos rfl⟩
    · rintro ⟨entry, found⟩
      split at found
      · rename_i same
        rw [same]
      · rename_i different
        split at found
        · cases found
        · rename_i stays
          exact ((alone other entry found).elim different stays).elim
  · rw [if_neg expires]
    by_cases same : key = other
    · subst same
      rw [if_pos rfl]
      constructor
      · intro found
        split at found
        · cases found
        · rename_i kept
          obtain ⟨entry, there⟩ := (exact.index time key).mp found
          simp [TtlCache.dropped, there] at kept
      · rintro ⟨entry, ⟨⟩⟩
        exact absurd rfl expires
    · rw [if_neg same]
      have here := exact.index time other
      have freed (entry : Value) (found : cache.data.get? other = some (entry, time)) :=
        exact.dropped_iff key found
      grind

theorem Exact.remove (key : Key) : (cache.remove key).2.Exact capacity := by
  rw [TtlCache.remove]
  cases found : cache.data.get? key with
  | none => exact exact
  | some info =>
    refine ⟨exact.same, exact.positive, ?_, fun time other => ?_⟩
    · refine exact.size_le_of_subset fun other entry there => ?_
      rw [get?_erase] at there
      grind
    · dsimp only
      rw [get?_erase, get?_erase]
      have own := exact.index info.2 key
      have here := exact.index time other
      grind

theorem Exact.gc (gcTime : Nat) : (cache.gc gcTime).Exact capacity where
  same := exact.same
  positive := exact.positive
  bounded := exact.size_le_of_subset fun _ _ found => (exact.get?_gc.mp found).1
  index := by
    intro time key
    simp only [exact.get?_gc, exists_and_right, ← exact.index]
    rw [TtlCache.gc, get?_filter_eq_some_iff, decide_eq_true_iff]

theorem Exact.call {call : TtlCacheCall Key Value} (fresh : cache.Fresh call) :
    (cache.call call).Exact capacity := by
  cases call with
  | insert now key value => exact exact.insert fresh
  | get key => exact exact
  | remove key => exact exact.remove key
  | gc gcTime => exact exact.gc gcTime

theorem Exact.get_call {call : TtlCacheCall Key Value} (fresh : cache.Fresh call) :
    (cache.call call).get key = some value ↔ (∃ now, call = .insert now key value) ∨
      (cache.get key = some value ∧ ¬ cache.Forgets key call) := by
  cases call with
  | insert now other entry =>
    rw [TtlCache.call, TtlCache.get, get?_insert fresh.1, TtlCache.get, Forgets]
    by_cases same : other = key
    · simp [same]
    · grind
  | get other => simp [TtlCache.call, Forgets]
  | remove other =>
    rw [TtlCache.call, TtlCache.get, TtlCache.remove, TtlCache.get, Forgets]
    cases found : cache.data.get? other with
    | none => grind
    | some info =>
      dsimp only
      rw [get?_erase]
      grind
  | gc gcTime =>
    rw [TtlCache.call, TtlCache.get, TtlCache.get, Forgets]
    simp only [Option.map_eq_some_iff, exact.get?_gc]
    grind

end

variable (capacity defaultTimeout : Nat) (calls : List (TtlCacheCall Key Value))

theorem run_concat (cache : TtlCache Key Value) (call : TtlCacheCall Key Value) :
    cache.run (calls ++ [call]) = (cache.run calls).call call := by
  simp [run]

/-- A property of every call and the calls before it, one call at a time. -/
theorem forall_split_cons {α : Type} {first : α} {items : List α} {P : List α → α → Prop} :
    (∀ earlier item later, first :: items = earlier ++ item :: later → P earlier item) ↔
      P [] first ∧ ∀ earlier item later, items = earlier ++ item :: later →
        P (first :: earlier) item := by
  constructor
  · intro holds
    refine ⟨holds [] first items rfl, fun earlier item later same => ?_⟩
    exact holds (first :: earlier) item later (by rw [same, cons_append])
  · rintro ⟨head, tail⟩ (_ | ⟨_, earlier⟩) item later same
    · cases same
      exact head
    · cases same
      exact tail earlier item later rfl

theorem exact_run (positive : 0 < capacity)
    (fresh : ∀ earlier call later, calls = earlier ++ call :: later →
      ((new capacity defaultTimeout).run earlier).Fresh call) :
    ((new capacity defaultTimeout).run calls).Exact capacity ∧
      ∀ key value, ((new capacity defaultTimeout).run calls).get key = some value ↔
        LastInsert (new capacity defaultTimeout) key value calls.reverse := by
  induction calls using reverseRecOn with
  | nil => refine ⟨⟨rfl, positive, Nat.zero_le _, ?_⟩, ?_⟩ <;> simp [run, new, LastInsert, get]
  | append_singleton calls call ih =>
    obtain ⟨exact, last⟩ := ih fun earlier middle later same =>
      fresh earlier middle (later ++ [call]) (by simp [same])
    rw [run_concat, reverse_concat]
    have freshCall := fresh calls call [] rfl
    refine ⟨exact.call freshCall, fun key value => ?_⟩
    rw [exact.get_call freshCall, LastInsert, last, reverse_reverse]

theorem fresh_of_promise {cache : TtlCache Key Value} {call : TtlCacheCall Key Value}
    (promise : cache.Promise (calls ++ [call])) : (cache.run calls).Fresh call := by
  cases call with
  | insert now key value =>
    have index := promise.index
    have get := promise.get key value
    rw [run_concat, TtlCache.call] at index get
    have fits : now + (cache.run calls).defaultTimeout < systemTimeEnd := by
      by_contra late
      rcases insert_of_not_fits late with absent | ⟨info, found, lost⟩
      · rw [absent, reverse_concat] at get
        cases get.mpr (.inl ⟨now, rfl⟩)
      · have there := (index info.2 key).mpr ⟨info.1, found⟩
        rw [lost] at there
        cases there
    refine ⟨fits, fun other entry found => ?_⟩
    by_contra stays
    rw [Forgets, not_or] at stays
    have there := (index _ other).mpr
      ⟨entry, by rwa [get?_insert fits, if_neg stays.1, if_neg stays.2]⟩
    rw [index_insert fits, if_pos rfl] at there
    cases there
    exact stays.1 rfl
  | get key => trivial
  | remove key => trivial
  | gc gcTime => trivial

/--
The cache keeps its promises along a run exactly if every inserted entry has a time of
expiration, and none is inserted while another one with the same time stays.
-/
theorem promise_iff (positive : 0 < capacity) :
    (∀ earlier later, calls = earlier ++ later → (new capacity defaultTimeout).Promise earlier) ↔
      ∀ earlier call later, calls = earlier ++ call :: later →
        ((new capacity defaultTimeout).run earlier).Fresh call := by
  constructor
  · rintro promise earlier call later rfl
    exact fresh_of_promise earlier (promise (earlier ++ [call]) later (by simp))
  · rintro fresh earlier later rfl
    obtain ⟨exact, last⟩ := exact_run capacity defaultTimeout earlier positive
      fun first call second same => fresh first call (second ++ later) (by simp [same])
    exact ⟨exact.bounded, exact.index, last, fun _ _ _ => exact.get?_gc⟩

/-- Key 1 is evicted and comes back twice at one time, key 2 is removed, key 3 expires. -/
theorem promise_iff_refill : let calls : List (TtlCacheCall Nat Char) :=
      [.insert 0 1 'a', .insert 1 2 'b', .insert 2 3 'c', .remove 2, .insert 3 1 'd',
        .insert 3 1 'e', .gc 13]
    (new 2 10).Promise calls ∧ ((new 2 10).run calls).data.entries = [(1, 'e', 13)] := by
  refine ⟨(promise_iff 2 10 _ (by decide)).mpr ?_ _ [] (append_nil _).symm, by decide +kernel⟩
  simp only [forall_split_cons]
  exact ⟨by decide +kernel, by decide +kernel, by decide +kernel, trivial, by decide +kernel,
    by decide +kernel, trivial, by simp⟩

/--
The keys 1 and 2 expire together: the index has only the key 2, and the key 1 stays.  With a
timeout beyond the clock an entry is not stored at all.
-/
theorem promise_broken :
    let cache := (new 2 10).run [.insert 5 1 'a', .insert 5 2 'b']
    let endless := (new 1 systemTimeEnd).run [.insert 5 1 'a']
    cache.ttlIndex.entries = [(15, 2)] ∧ cache.data.size = 2 ∧
      (cache.gc 100).get 1 = some 'a' ∧ endless.get 1 = none := by
  decide +kernel

end TtlCache

end Cache

end Diem.CoreMempool
