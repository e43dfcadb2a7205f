import Diem.MempoolRuns

namespace Diem.CoreMempool

open List TxnPointer

/-!
# Ready transactions in blocks

Which transactions of the queue can be in a block: `get_block` asks the cache of sequence
numbers where an account starts, and the cache forgets sooner than the store.
-/

section Eligibility

variable {Data Hash : Type} [LinearOrder Hash]

namespace Mempool

variable {mempool : Mempool Data Hash} {walk : Walk} {batchSize : Nat}
  {pointer : TxnPointer}

/--
From a transaction that does not wait, the account of a number zero goes on to the last number
without a gap, and the queue has one of these transactions behind the number zero.
-/
def WrapsTo (mempool : Mempool Data Hash) (key : OrderedQueueKey) : Prop :=
  ∃ start ∈ mempool.queue,
    start.pointer.1 = key.pointer.1 ∧ ¬ mempool.Waits start ∧ mempool.Closes start ∧
      ∃ late ∈ mempool.queue, late.pointer.1 = key.pointer.1 ∧
        start.pointer.2 ≤ late.pointer.2 ∧ late.rank < key.rank

/-- What waits in the queue follows another transaction of the queue. -/
def Chained (mempool : Mempool Data Hash) : Prop :=
  ∀ key ∈ mempool.queue, mempool.Waits key →
    (0 < key.pointer.2 ∧ mempool.transactions.Ready (key.pointer.1, key.pointer.2 - 1)) ∨
      (key.pointer.2 = 0 ∧ mempool.WrapsTo key)

/-- What was skipped and can follow was included, but for some pointers. -/
def Walk.ClosedBut (walk : Walk) (exempt : TxnPointer → Prop) : Prop :=
  ∀ pointer ∈ walk.skipped,
    pointer.previous ∈ walk.seen → pointer ∈ walk.seen ∨ exempt pointer

/-- Including a pointer can only open the way for the next one. -/
theorem Walk.ClosedBut.take {exempt : TxnPointer → Prop}
    (isU64 : ∀ pointer ∈ walk.skipped, pointer.2 < 2 ^ 64)
    (closed : walk.ClosedBut fun other => other = pointer ∨ exempt other) :
    (walk.take pointer).ClosedBut fun other => other = pointer.next ∨ exempt other := by
  intro other isSkipped previous
  rw [walk.mem_seen_take] at previous ⊢
  rcases previous with rfl | old
  · exact .inr (.inl (next_previous (isU64 other isSkipped)).symm)
  · have before := closed other isSkipped old
    tauto

/-- The number zero came when the queue of its account up to the last number was over. -/
def TooLate (mempool : Mempool Data Hash) (pointer : TxnPointer) : Prop :=
  pointer.2 = 0 ∧ ∀ key ∈ mempool.queue, key.pointer = pointer →
    ∀ other ∈ mempool.queue, other.pointer.1 = pointer.1 →
      mempool.Closes other → key.rank < other.rank

/-- What the walk has visited is included, or skipped for a reason. -/
structure Exhausted (mempool : Mempool Data Hash) (visited : List OrderedQueueKey)
    (walk : Walk) : Prop where
  closed : walk.ClosedBut mempool.TooLate
  visited :
    ∀ key ∈ visited, key.pointer ∈ walk.seen ∨ key.pointer ∈ walk.skipped ∧ mempool.Waits key

variable {visited : List OrderedQueueKey} {key : OrderedQueueKey}

/-- What the block has of an account goes down to a number if all behind that number wait. -/
theorem mem_of_waits {block : List TxnPointer} {account : AccountAddress} {number last : Nat}
    (admissible : ∀ earlier pointer later, block = earlier ++ pointer :: later →
      mempool.Admissible ∅ earlier pointer)
    (waits : mempool.WaitsBetween account number (last + 1))
    (order : number ≤ last) (inside : (account, last) ∈ block) : (account, number) ∈ block := by
  induction last with
  | zero =>
    rw [Nat.le_zero.mp order]
    exact inside
  | succ last ih =>
    rcases order.lt_or_eq with less | rfl
    · obtain ⟨key, inIndex, isKey, isWaiting⟩ := waits (last + 1) less (Nat.lt_succ_self _)
      obtain ⟨earlier, later, split⟩ := append_of_mem inside
      rcases (admissible _ _ _ split).predecessor key inIndex isKey isWaiting with
        ⟨-, previous⟩ | ⟨zero, -⟩
      · refine ih (fun middle lower upper => waits middle lower (Nat.lt_succ_of_lt upper))
          (Nat.le_of_lt_succ less) ?_
        rw [split]
        exact mem_append_left _ (previous.resolve_left (Finset.notMem_empty _))
      · exact absurd zero (Nat.succ_ne_zero _)
    · exact inside

section

variable (sound : mempool.SoundQueue)
  (inQueue : ∀ other ∈ visited ++ [key], other ∈ mempool.queue)
  (lower : ∀ other ∈ visited, key.rank < other.rank)
  (invariant : mempool.WalkInvariant ∅ visited walk)
include sound inQueue lower invariant

/-- A number zero that is skipped although the last number was included. -/
theorem WalkInvariant.tooLate (zero : key.pointer.2 = 0)
    (isSeen : .last key.pointer.1 ∈ walk.seen) : mempool.TooLate key.pointer := by
  have isLast : key ∈ visited ++ [key] := mem_concat_self
  refine ⟨zero, fun own inIndex same other otherIndex account closes => ?_⟩
  rw [sound.oneKeyEach own inIndex key (inQueue key isLast) same]
  have included : other.pointer ∈ walk.result := by
    rw [← Prod.mk.eta (p := other.pointer), account]
    refine mem_of_waits (fun _ _ _ split => invariant.admitted.of_split split) ?_
      (Nat.le_sub_one_of_lt (sound.isU64 other otherIndex))
      (((invariant.seen _).mp isSeen).resolve_left (Finset.notMem_empty _))
    intro middle behind small
    rw [← account]
    exact closes middle behind (by omega)
  obtain ⟨visitedKey, isVisited, samePointer⟩ := invariant.result _ included
  rw [← sound.oneKeyEach visitedKey (inQueue _ (mem_append_left _ isVisited)) other otherIndex
    samePointer]
  exact lower visitedKey isVisited

/-- A visit leaves nothing behind, unless the block is full. -/
theorem Exhausted.visit (exhausted : mempool.Exhausted visited walk) :
    (mempool.visit batchSize walk key).full batchSize = true ∨
      mempool.Exhausted (visited ++ [key]) (mempool.visit batchSize walk key) := by
  have isLast : key ∈ visited ++ [key] := mem_concat_self
  have grow : ∀ {after : Walk},
        walk.seen ⊆ after.seen → walk.skipped ⊆ after.skipped → after.ClosedBut mempool.TooLate →
          (key.pointer ∈ after.seen ∨ key.pointer ∈ after.skipped ∧ mempool.Waits key) →
          mempool.Exhausted (visited ++ [key]) after := by
    intro after seen skipped closed own
    refine ⟨closed, fun other member => ?_⟩
    rcases mem_append.mp member with old | new
    · exact (exhausted.visited other old).imp (@seen _) (.imp_left (@skipped _))
    · rw [mem_singleton.mp new]
      exact own
  rw [Mempool.visit]
  split
  · rename_i isSeen
    exact .inr (grow subset_rfl subset_rfl exhausted.closed (.inl isSeen))
  · rename_i notSeen
    split
    · rename_i isNext
      have isU64 : ∀ {after : Walk}, mempool.WalkInvariant ∅ (visited ++ [key]) after →
          ∀ pointer ∈ after.skipped, pointer.2 < 2 ^ 64 := by
        intro after holds pointer isSkipped
        obtain ⟨other, isVisited, rfl, -⟩ := holds.skipped pointer isSkipped
        exact sound.isU64 other (inQueue other isVisited)
      have taken := invariant.take_next sound inQueue lower notSeen isNext
      have closed : (walk.take key.pointer).ClosedBut fun other =>
          other = key.pointer.next ∨ mempool.TooLate other :=
        Walk.ClosedBut.take (isU64 (invariant.grow key)) fun other isSkipped previous =>
          (exhausted.closed other isSkipped previous).imp_right .inr
      obtain ⟨-, stop, ⟨seen, skipped, final⟩, ends⟩ := taken.takeSkipped
        (motive := fun after stop => (walk.take key.pointer).seen ⊆ after.seen ∧
          after.skipped = walk.skipped ∧
            after.ClosedBut fun other => other = stop ∨ mempool.TooLate other)
        sound inQueue isLast (lowest_of_lower lower) batchSize walk.skipped.card
        ((invariant.grow key).chain_start sound inQueue isLast notSeen)
        ⟨subset_rfl, rfl, closed⟩ (by
          rintro after pointer holds ⟨seen, skipped, closed⟩
          exact ⟨seen.trans (Finset.subset_insert _ _), skipped, closed.take (isU64 holds)⟩)
      refine (ends (Finset.card_le_card Finset.sdiff_subset)).imp_right fun stopped => ?_
      refine grow ((Finset.subset_insert _ _).trans seen) skipped.ge ?_
        (.inl (seen (Finset.mem_insert_self _ _)))
      intro other isSkipped previous
      refine (final other isSkipped previous).imp_right fun exempt => exempt.resolve_left ?_
      rintro rfl
      exact stopped isSkipped
    · rename_i notNext
      refine .inr (grow subset_rfl (Finset.subset_insert _ _) ?_
        (.inr ⟨Finset.mem_insert_self _ _, waits_of_not_isNext notNext⟩))
      intro other isSkipped previous
      rcases Finset.mem_insert.mp isSkipped with rfl | old
      · rcases Nat.eq_zero_or_pos key.pointer.2 with zero | positive
        · rw [previous_of_zero zero] at previous
          exact .inr (invariant.tooLate sound inQueue lower zero previous)
        · rw [previous_of_pos positive] at previous
          simp only [isNext, Bool.or_eq_true, decide_eq_true_iff, not_or] at notNext
          exact absurd ⟨positive, previous⟩ notNext.1.1
      · exact exhausted.closed other old previous

end

/-- The walk leaves nothing behind, unless the block is full. -/
theorem exhausted_walkQueue (sound : mempool.SoundQueue) (batchSize : Nat) :
    (mempool.walkQueue batchSize ⟨∅, ∅, []⟩ mempool.queue.iter).full batchSize = true ∨
      mempool.Exhausted mempool.queue.iter
        (mempool.walkQueue batchSize ⟨∅, ∅, []⟩ mempool.queue.iter) := by
  obtain ⟨visited, ⟨-, exhausted⟩, full | rfl⟩ := walkQueue_induction mempool ∅ batchSize
    (motive := fun visited walk => mempool.WalkInvariant ∅ visited walk ∧
      (walk.full batchSize = true ∨ mempool.Exhausted visited walk))
    ⟨.start mempool ∅, .inr ⟨nofun, nofun⟩⟩
    fun inQueue lower room ⟨invariant, exhausted⟩ =>
      ⟨invariant.visit sound inQueue lower batchSize,
        (exhausted.resolve_left room).visit sound inQueue lower invariant⟩
  · exact .inl full
  · exact exhausted

/-- A full block that has room for the whole queue has all of it. -/
theorem mem_result_of_full (large : mempool.queue.size ≤ walk.result.length)
    (nodup : walk.result.Nodup)
    (queued : ∀ pointer ∈ walk.result, mempool.transactions.Ready pointer) {key : OrderedQueueKey}
    (inside : key ∈ mempool.queue) : key.pointer ∈ walk.result := by
  have subset :
      walk.result ⊆ mempool.queue.keys.map OrderedQueueKey.pointer := by
    intro pointer member
    obtain ⟨other, isQueued, same⟩ := queued pointer member
    exact mem_map.mpr ⟨other, RankedSet.mem_keys.mpr isQueued, same⟩
  have all := (subperm_of_subset nodup subset).perm_of_length_le (by
    rw [length_map, RankedSet.length_keys]
    exact large)
  rw [all.mem_iff]
  exact mem_map_of_mem (RankedSet.mem_keys.mpr inside)

section

variable (sound : mempool.SoundQueue)
  (exhausted : mempool.Exhausted mempool.queue.iter walk)
include exhausted

theorem Exhausted.cases (inside : key ∈ mempool.queue) :
    key.pointer ∈ walk.seen ∨ key.pointer ∈ walk.skipped ∧ mempool.Waits key :=
  exhausted.visited key (mem_reverse.mpr (RankedSet.mem_keys.mpr inside))

/-- What closes an account is included up to the last number. -/
theorem Exhausted.last_mem_seen (isU64 : key.pointer.2 < 2 ^ 64) (closes : mempool.Closes key)
    (isSeen : key.pointer ∈ walk.seen) : .last key.pointer.1 ∈ walk.seen := by
  have upTo : ∀ number, key.pointer.2 ≤ number → number < 2 ^ 64 →
      (key.pointer.1, number) ∈ walk.seen := by
    intro number order
    induction number, order using Nat.le_induction with
    | base => exact fun _ => isSeen
    | succ number order ih =>
      intro small
      obtain ⟨next, inIndex, isNext, -⟩ := closes (number + 1) (by omega) small
      have cases := exhausted.cases inIndex
      rw [isNext] at cases
      rcases cases with there | ⟨isSkipped, -⟩
      · exact there
      · have previous : previous (key.pointer.1, number + 1) ∈ walk.seen := by
          rw [previous_of_pos (Nat.succ_pos number)]
          exact ih (by omega)
        refine (exhausted.closed _ isSkipped previous).resolve_right fun tooLate => ?_
        exact absurd tooLate.1 (Nat.succ_ne_zero number)
  exact upTo _ (Nat.le_sub_one_of_lt isU64) (by decide)

include sound

/-- In a queue without gaps everything that was visited is included. -/
theorem Exhausted.mem_seen (chained : mempool.Chained)
    (inside : key ∈ mempool.queue) : key.pointer ∈ walk.seen := by
  induction number : key.pointer.2 generalizing key with
  | zero =>
    rcases exhausted.cases inside with isSeen | ⟨isSkipped, waits⟩
    · exact isSeen
    · obtain ⟨-, start, startIn, account, ready, closes, late, lateIn, lateAccount, order, rank⟩ :=
        (chained key inside waits).resolve_left fun both => by omega
      have isSeen := (exhausted.cases startIn).resolve_right fun both => ready both.2
      have last := exhausted.last_mem_seen (sound.isU64 start startIn) closes isSeen
      rw [account, ← previous_of_zero number] at last
      refine (exhausted.closed _ isSkipped last).resolve_right fun tooLate => ?_
      refine rank.asymm (tooLate.2 key inside rfl late lateIn lateAccount ?_)
      intro behind less small
      rw [lateAccount, ← account]
      exact closes behind (order.trans_lt less) small
  | succ number ih =>
    rcases exhausted.cases inside with isSeen | ⟨isSkipped, waits⟩
    · exact isSeen
    · obtain ⟨positive, other, isQueued, previous⟩ :=
        (chained key inside waits).resolve_right fun both => by omega
      have before := ih isQueued (by rw [previous]; dsimp only; omega)
      rw [previous, ← previous_of_pos positive] at before
      refine (exhausted.closed _ isSkipped before).resolve_right fun tooLate => ?_
      exact positive.ne' tooLate.1

end

/-- A number zero that was included after the last number. -/
theorem wrapsTo_of_admissible (sound : mempool.SoundQueue) {block : List TxnPointer}
    (admissible : ∀ earlier pointer later, block = earlier ++ pointer :: later →
      mempool.Admissible ∅ earlier pointer)
    (zero : key.pointer.2 = 0) (new : key.pointer ∉ block) (isLast : .last key.pointer.1 ∈ block)
    {closing : OrderedQueueKey} (inIndex : closing ∈ mempool.queue)
    (account : closing.pointer.1 = key.pointer.1) (rank : closing.rank < key.rank)
    (closes : mempool.Closes closing) : mempool.WrapsTo key := by
  classical
  -- the first number from which on all others wait
  rw [Closes, account] at closes
  have someNumber : ∃ number, mempool.WaitsBetween key.pointer.1 number (2 ^ 64) := ⟨_, closes⟩
  have order : Nat.find someNumber ≤ closing.pointer.2 := Nat.find_min' someNumber closes
  have behind := Nat.find_spec someNumber
  have first : ∀ number < Nat.find someNumber, ¬ _ := fun number => Nat.find_min someNumber
  generalize Nat.find someNumber = number at order behind first
  have small := sound.isU64 closing inIndex
  have inside : (key.pointer.1, number) ∈ block :=
    mem_of_waits admissible (fun middle less upper => behind middle less (by omega))
      (by omega : number ≤ 2 ^ 64 - 1) isLast
  obtain ⟨earlier, later, split⟩ := append_of_mem inside
  obtain ⟨start, startIn, isStart⟩ := (admissible _ _ _ split).queued
  refine ⟨start, startIn, by rw [isStart], fun waits => ?_, ?_, closing, inIndex, account,
    ?_, rank⟩
  · rcases Nat.eq_zero_or_pos number with none | positive
    · refine new ?_
      rwa [← Prod.mk.eta (p := key.pointer), zero, ← none]
    · refine first (number - 1) (by omega) fun middle less upper => ?_
      rcases (Nat.le_of_pred_lt less).lt_or_eq with later | rfl
      · exact behind middle later upper
      · exact ⟨start, startIn, isStart, waits⟩
  · rw [Closes, isStart]
    exact behind
  · rw [isStart]
    exact order

variable [DecidableEq Data]

/--
A block with room for the whole queue has every ready transaction exactly if the queue of
each account starts at the number in the cache.
-/
theorem getBlock_all_iff
    (hasher : CommittedHash Data Hash)
    (config : MempoolConfig)
    (calls : List (MempoolCall Data))
    (extra : Nat) :
    let mempool := (Mempool.new config).run hasher calls
    (∀ pointer txn, mempool.transactions.Ready pointer →
      mempool.transactions.lookup pointer = some txn →
        txn.txn ∈ mempool.getBlock (mempool.queue.size + extra) ∅) ↔
      mempool.Chained := by
  intro mempool
  have indexed : mempool.transactions.Indexed hasher _ _ := indexed_run hasher config calls
  generalize mempool = mempool at indexed ⊢
  generalize sized : mempool.queue.size + extra = batchSize
  have sound := soundQueue_of_indexed indexed
  obtain ⟨visited, invariant⟩ := invariant_walkQueue sound batchSize ∅
  have included : ∀ pointer txn, mempool.transactions.lookup pointer = some txn →
    (txn.txn ∈ mempool.getBlock batchSize ∅ ↔ pointer ∈
      (mempool.walkQueue batchSize ⟨∅, ∅, []⟩ mempool.queue.iter).result) := by
    intro pointer txn found
    refine mem_filterMap.trans ⟨?_, fun inside => ⟨pointer, inside, ?_⟩⟩
    · rintro ⟨other, inside, got⟩
      obtain ⟨stored, isStored, same⟩ := Option.map_eq_some_iff.mp got
      have own := indexed.keyed other stored isStored
      rw [← Prod.mk.eta (p := other), ← own.sender, ← own.number, same,
        (indexed.keyed pointer txn found).sender,
        (indexed.keyed pointer txn found).number] at inside
      exact inside
    · exact congrArg (Option.map MempoolTransaction.txn) found
  constructor
  · rintro all key inside ⟨⟨number, kind⟩, notCached⟩
    have ready : mempool.transactions.Ready key.pointer := ⟨key, inside, rfl⟩
    obtain ⟨txn, found⟩ := indexed.stored_of_ready ready
    obtain ⟨earlier, later, split⟩ :=
      append_of_mem ((included _ txn found).mp (all _ txn ready found))
    rcases (invariant.admitted.of_split split).predecessor key inside rfl
      ⟨⟨number, kind⟩, notCached⟩
      with ⟨positive, previous⟩ | ⟨zero, isLast, closing, inIndex, account, rank, closes⟩
    · refine .inl ⟨positive, invariant.ready ?_⟩
      rw [split]
      exact mem_append_left _ (previous.resolve_left (Finset.notMem_empty _))
    · have new := (invariant.admitted.of_split split).new
      refine .inr ⟨zero, wrapsTo_of_admissible sound (fun first pointer rest same => ?_) zero
        new isLast inIndex account rank closes⟩
      rw [same, append_assoc, cons_append] at split
      exact invariant.admitted.of_split split
  · rintro chained pointer txn ⟨key, inside, rfl⟩ found
    refine (included _ txn found).mpr ?_
    rcases exhausted_walkQueue sound batchSize with full | exhausted
    · rw [Walk.full, decide_eq_true_iff] at full
      refine mem_result_of_full ?_ (invariant.admitted.nodup fun _ _ ok => ok.new)
        (fun _ => invariant.ready) inside
      rw [full.2, ← sized]
      exact Nat.le_add_right _ _
    · have isSeen := exhausted.mem_seen sound chained inside
      exact ((invariant.seen _).mp isSeen).resolve_left (Finset.notMem_empty _)

/--
The only account has one ready transaction.  The cache forgets the account after a hundred
seconds, and no block has the transaction.
-/
theorem getBlock_none :
    let mempool := (Mempool.new ⟨10, 10, 1000⟩).run plainHash
      [submit 0 0 .notReady, .gc (TransactionStore.fromSecs 101) 0]
    mempool.queue.keys.map OrderedQueueKey.pointer = [(7, 0)] ∧
      (mempool.transactions.get 7 0).isSome = true ∧
      mempool.getBlock 10 ∅ = [] := by
  decide +kernel

end Mempool

end Eligibility

end Diem.CoreMempool
