import Diem.Mempool
import Diem.MempoolExpiry

namespace Diem.CoreMempool

open TransactionStore List Mempool

/-!
# Blocks from the mempool

Whatever calls were made, the block that `get_block` builds can be executed in order, and
it follows the priorities of the queue as far as the sequence numbers allow.
-/

/-!
## Lists that grow at the end
-/

section Histories

variable {α : Type} {admits : List α → α → Prop}

/-- Every element was admitted after the elements before it. -/
inductive Admitted (admits : List α → α → Prop) : List α → Prop
  | nil : Admitted admits []
  | snoc {items : List α} {item : α} :
      Admitted admits items → admits items item → Admitted admits (items ++ [item])

theorem Admitted.of_split {items earlier later : List α} {item : α}
    (admitted : Admitted admits items) (split : items = earlier ++ item :: later) :
    admits earlier item := by
  induction admitted generalizing later with
  | nil => simp at split
  | @snoc rest last _ ok ih =>
    rcases eq_nil_or_concat later with rfl | ⟨others, final, rfl⟩
    · obtain ⟨rfl, same⟩ := append_inj' split rfl
      cases same
      exact ok
    · rw [concat_eq_append, ← cons_append, ← append_assoc] at split
      obtain ⟨same, -⟩ := append_inj' split rfl
      exact ih same

theorem Admitted.nodup {items : List α} (admitted : Admitted admits items)
    (new : ∀ earlier item, admits earlier item → item ∉ earlier) : items.Nodup := by
  induction admitted with
  | nil => exact nodup_nil
  | @snoc rest last _ ok ih =>
    rw [← concat_eq_append]
    exact ih.concat (new rest last ok)

end Histories

section Blocks

variable {Data Hash : Type} [LinearOrder Hash]

def SignedTransaction.pointer (txn : SignedTransaction Data) : TxnPointer :=
  (txn.sender, txn.sequenceNumber)

namespace TxnPointer

/-- The transaction with the last 64-bit number. -/
def last (account : AccountAddress) : TxnPointer := (account, 2 ^ 64 - 1)

/-- The transaction before another one; the last one is before the number zero. -/
def previous (pointer : TxnPointer) : TxnPointer :=
  if pointer.2 = 0 then .last pointer.1 else (pointer.1, pointer.2 - 1)

variable {pointer : TxnPointer}

theorem previous_next (isU64 : pointer.2 < 2 ^ 64) : pointer.next.previous = pointer := by
  obtain ⟨account, number⟩ := pointer
  rw [next, previous, last, Word64.wrap]
  dsimp only at isU64 ⊢
  split
  · exact Prod.ext rfl (by dsimp only; omega)
  · exact Prod.ext rfl (by dsimp only; omega)

theorem next_previous (isU64 : pointer.2 < 2 ^ 64) : pointer.previous.next = pointer := by
  obtain ⟨account, number⟩ := pointer
  rw [previous]
  dsimp only at isU64 ⊢
  split
  · exact Prod.ext rfl (by simp only [next, last, Word64.wrap]; omega)
  · exact Prod.ext rfl (by simp only [next, Word64.wrap]; omega)

/-- The number after one is the next number, unless it is the last. -/
theorem next_cases (isU64 : pointer.2 < 2 ^ 64) :
    pointer.next.2 = pointer.2 + 1 ∨ pointer.2 + 1 = 2 ^ 64 ∧ pointer = .last pointer.1 := by
  by_cases fits : pointer.2 + 1 < 2 ^ 64
  · exact .inl (Word64.wrap_eq_self fits)
  · exact .inr ⟨by omega, Prod.ext rfl (by simp only [last]; omega)⟩

theorem next_ne (pointer : TxnPointer) : pointer.next ≠ pointer := by
  intro same
  have numbers := congrArg Prod.snd same
  simp only [next, Word64.wrap] at numbers
  omega

theorem previous_of_pos (positive : 0 < pointer.2) :
    pointer.previous = (pointer.1, pointer.2 - 1) :=
  if_neg positive.ne'

theorem previous_of_zero (zero : pointer.2 = 0) : pointer.previous = .last pointer.1 :=
  if_pos zero

end TxnPointer

namespace Mempool

/-!
## Runs
-/

section Runs

variable [DecidableEq Data]
  (hasher : CommittedHash Data Hash)

/-- A call keeps the indexes in step. -/
theorem indexed_call {mempool : Mempool Data Hash}
    (indexed : mempool.transactions.Indexed hasher) (call : MempoolCall Data) :
    (mempool.call hasher call).transactions.Indexed hasher := by
  cases call with
  | addTxn now epochTime choice submission =>
    rw [call, addTxn]
    split
    · exact indexed
    · exact indexed.insert choice ⟨rfl, rfl, rfl⟩
  | removeTransaction now later sender sequenceNumber isRejected =>
    rw [call, removeTransaction]
    dsimp only
    split
    · dsimp only
      split
      · exact (indexed.rejectTransaction sender).1
      · exact indexed
    · exact indexed.commitTransaction sender _
  | gc now epochTime => exact (indexed.gcBySystemTtl epochTime).1
  | gcByExpirationTime blockTime => exact (indexed.gcByExpirationTime blockTime).1

/-- Whatever calls are made, all indexes refer to the stored transactions. -/
theorem indexed_run (config : MempoolConfig) (calls : List (MempoolCall Data)) :
    ((new config).run hasher calls).transactions.Indexed hasher := by
  induction calls using reverseRecOn with
  | nil => exact Indexed.new _ _
  | append_singleton calls call ih =>
    rw [run, foldl_append]
    exact indexed_call hasher ih call

end Runs

/-!
## The walk over the queue
-/

variable {mempool : Mempool Data Hash}

/-- The ready transactions in the order of their ranks. -/
abbrev queue (mempool : Mempool Data Hash) : PriorityIndex :=
  mempool.transactions.priorityIndex

/-- A transaction with a sequential number that is not the one its account is at. -/
def Waits (mempool : Mempool Data Hash) (key : OrderedQueueKey) : Prop :=
  (∃ number, key.sequenceNumber.accountSequenceNumberType = .sequential number) ∧
    mempool.sequenceNumberCache.get key.pointer.1 ≠ some key.pointer.2

/-- All numbers of an account between two are in the queue and wait. -/
def WaitsBetween (mempool : Mempool Data Hash) (account : AccountAddress)
    (first stop : Nat) : Prop :=
  ∀ number, first < number → number < stop →
    ∃ key ∈ mempool.queue, key.pointer = (account, number) ∧ mempool.Waits key

/-- All numbers of the account behind a transaction are in the queue and wait. -/
def Closes (mempool : Mempool Data Hash) (key : OrderedQueueKey) : Prop :=
  mempool.WaitsBetween key.pointer.1 key.pointer.2 (2 ^ 64)

/--
A transaction may follow others in a block.  The number zero may follow the last number, if it
was skipped before the queue of the account came to the last number.
-/
structure Admissible (mempool : Mempool Data Hash) (seen : Finset TxnPointer)
    (earlier : List TxnPointer)
    (pointer : TxnPointer) : Prop where
  queued : ∃ key ∈ mempool.queue, key.pointer = pointer
  fresh : pointer ∉ seen
  new : pointer ∉ earlier
  predecessor : ∀ key ∈ mempool.queue, key.pointer = pointer →
    mempool.Waits key →
      (0 < pointer.2 ∧ ((pointer.1, pointer.2 - 1) ∈ seen ∨ (pointer.1, pointer.2 - 1) ∈ earlier)) ∨
        (pointer.2 = 0 ∧ .last pointer.1 ∈ earlier ∧
          ∃ closing ∈ mempool.queue, closing.pointer.1 = pointer.1 ∧
            closing.rank < key.rank ∧ mempool.Closes closing)
  ranked : ∀ first ∈ mempool.queue, first.pointer ∈ earlier →
    ∀ second ∈ mempool.queue, second.pointer = pointer →
      first.rank < second.rank → .last pointer.1 ∈ earlier ∨
        ∃ key ∈ mempool.queue,
          key.pointer.1 = pointer.1 ∧ key.pointer.2 < pointer.2 ∧ key.rank ≤ first.rank

/-- A transaction has one place in the queue, and a 64-bit number. -/
structure SoundQueue (mempool : Mempool Data Hash) : Prop where
  oneKeyEach : ∀ first ∈ mempool.queue,
    ∀ second ∈ mempool.queue, first.pointer = second.pointer → first = second
  isU64 : ∀ key ∈ mempool.queue, key.pointer.2 < 2 ^ 64

variable {hasher : CommittedHash Data Hash}
  {pendingSystem pendingExpiration : TxnPointer → Prop}

theorem soundQueue_of_indexed
    (indexed : mempool.transactions.Indexed hasher pendingSystem pendingExpiration) :
    mempool.SoundQueue := by
  refine ⟨?_, ?_⟩
  · intro first firstMember second secondMember same
    obtain ⟨txn, found, own⟩ := indexed.queued first firstMember
    obtain ⟨other, otherFound, otherOwn⟩ := indexed.queued second secondMember
    rw [← same, found] at otherFound
    cases otherFound
    exact own.symm.trans otherOwn
  · intro key member
    obtain ⟨txn, found, -⟩ := indexed.queued key member
    rw [← (indexed.keyed _ txn found).number]
    exact txn.txn.isU64

theorem waits_of_not_isNext {walk : Walk} {key : OrderedQueueKey}
    (notNext : ¬ mempool.isNext walk key = true) : mempool.Waits key := by
  simp only [isNext, Bool.or_eq_true, decide_eq_true_iff, not_or] at notNext
  refine ⟨?_, notNext.1.2⟩
  cases kind : key.sequenceNumber.accountSequenceNumberType with
  | sequential number => exact ⟨number, rfl⟩
  | crsn minNonce size =>
    rw [kind] at notNext
    exact absurd rfl notNext.2

/-- What holds of the walk when the keys before a rank were visited. -/
structure WalkInvariant (mempool : Mempool Data Hash) (seen : Finset TxnPointer)
    (visited : List OrderedQueueKey)
    (walk : Walk) : Prop where
  admitted : Admitted (mempool.Admissible seen) walk.result
  seen : ∀ pointer, pointer ∈ walk.seen ↔ pointer ∈ seen ∨ pointer ∈ walk.result
  result : ∀ pointer ∈ walk.result, ∃ key ∈ visited, key.pointer = pointer
  skipped : ∀ pointer ∈ walk.skipped, ∃ key ∈ visited, key.pointer = pointer ∧ mempool.Waits key
  -- what was skipped is only included after its predecessor
  linked : ∀ pointer ∈ walk.skipped, pointer ∈ walk.seen → pointer.previous ∈ walk.seen

theorem Walk.mem_seen_take (walk : Walk) (pointer query : TxnPointer) :
    query ∈ (walk.take pointer).seen ↔ query = pointer ∨ query ∈ walk.seen :=
  Finset.mem_insert

theorem Walk.mem_result_take (walk : Walk) (pointer query : TxnPointer) :
    query ∈ (walk.take pointer).result ↔ query ∈ walk.result ∨ query = pointer := by
  rw [Walk.take, mem_append, mem_singleton]

variable {seen : Finset TxnPointer} {visited : List OrderedQueueKey} {walk : Walk}
  {pointer : TxnPointer}

/-- Including an admissible transaction. -/
theorem WalkInvariant.take (invariant : mempool.WalkInvariant seen visited walk)
    (admissible : mempool.Admissible seen walk.result pointer)
    (isVisited : ∃ key ∈ visited, key.pointer = pointer)
    (linked : pointer ∈ walk.skipped → pointer.previous ∈ walk.seen) :
    mempool.WalkInvariant seen visited (walk.take pointer) := by
  refine ⟨invariant.admitted.snoc admissible, ?_, ?_, invariant.skipped, ?_⟩
  · intro query
    rw [Walk.mem_seen_take, invariant.seen, Walk.mem_result_take]
    tauto
  · intro query member
    rcases (walk.mem_result_take _ _).mp member with old | rfl
    · exact invariant.result query old
    · exact isVisited
  · intro query isSkipped isSeen
    refine (walk.mem_seen_take _ _).mpr (.inr ?_)
    rcases (walk.mem_seen_take pointer query).mp isSeen with rfl | old
    · exact linked isSkipped
    · exact invariant.linked query isSkipped old

/--
Where the loop over what was skipped stands after the transaction it started from: the numbers
from there on were included, up to the current one or beyond the last one.
-/
structure Chain (mempool : Mempool Data Hash) (current : OrderedQueueKey) (walk : Walk)
    (pointer : TxnPointer) : Prop where
  account : pointer.1 = current.pointer.1
  started : current.pointer ∈ walk.result
  previous : pointer.previous ∈ walk.result
  absent : pointer ∈ walk.skipped → pointer ∉ walk.seen
  order : (current.pointer.2 < pointer.2 ∧
      mempool.WaitsBetween current.pointer.1 current.pointer.2 pointer.2) ∨
    (.last pointer.1 ∈ walk.result ∧ mempool.Closes current)

section

variable {current : OrderedQueueKey} (invariant : mempool.WalkInvariant seen visited walk)
  (sound : mempool.SoundQueue) (inQueue : ∀ key ∈ visited, key ∈ mempool.queue)
include invariant sound inQueue

/-- The loop goes on after a transaction that was included now. -/
theorem WalkInvariant.chain_take {key : OrderedQueueKey} (isVisited : key ∈ visited)
    (notSeen : key.pointer ∉ walk.seen) (account : key.pointer.1 = current.pointer.1)
    (started : current.pointer ∈ (walk.take key.pointer).result)
    (order : (current.pointer.2 ≤ key.pointer.2 ∧
        mempool.WaitsBetween current.pointer.1 current.pointer.2 (key.pointer.2 + 1)) ∨
      (.last key.pointer.1 ∈ walk.result ∧ mempool.Closes current)) :
    mempool.Chain current (walk.take key.pointer) key.pointer.next := by
  have isU64 := sound.isU64 key (inQueue key isVisited)
  have taken : key.pointer ∈ (walk.take key.pointer).result :=
    (walk.mem_result_take _ _).mpr (.inr rfl)
  refine ⟨account, started, ?_, fun isSkipped isSeen => ?_, ?_⟩
  · rw [TxnPointer.previous_next isU64]
    exact taken
  · rcases (walk.mem_seen_take _ _).mp isSeen with same | old
    · exact TxnPointer.next_ne _ same
    · have before := invariant.linked _ isSkipped old
      rw [TxnPointer.previous_next isU64] at before
      exact notSeen before
  · rcases order with ⟨larger, between⟩ | ⟨wrapped, closes⟩
    · rcases TxnPointer.next_cases isU64 with next | ⟨stop, isLast⟩
      · rw [next]
        exact .inl ⟨Nat.lt_succ_of_le larger, between⟩
      · rw [stop] at between
        exact .inr ⟨isLast ▸ taken, between⟩
    · exact .inr ⟨(walk.mem_result_take _ _).mpr (.inl wrapped), closes⟩

theorem WalkInvariant.chain_start (isCurrent : current ∈ visited)
    (notSeen : current.pointer ∉ walk.seen) :
    mempool.Chain current (walk.take current.pointer) current.pointer.next :=
  invariant.chain_take sound inQueue isCurrent notSeen rfl
    ((walk.mem_result_take _ _).mpr (.inr rfl))
    (.inl ⟨le_rfl, fun _ lower upper => absurd upper (Nat.not_lt.mpr lower)⟩)

/-- The next transaction that was skipped is included. -/
theorem WalkInvariant.chain_next
    (chain : mempool.Chain current walk pointer) (isSkipped : pointer ∈ walk.skipped) :
    mempool.Chain current (walk.take pointer) pointer.next := by
  obtain ⟨key, isVisited, rfl, waits⟩ := invariant.skipped _ isSkipped
  refine invariant.chain_take sound inQueue isVisited (chain.absent isSkipped) chain.account
    ((walk.mem_result_take _ _).mpr (.inl chain.started)) (chain.order.imp_left ?_)
  rintro ⟨larger, between⟩
  refine ⟨larger.le, fun number lower upper => ?_⟩
  rcases (Nat.le_of_lt_succ upper).lt_or_eq with before | rfl
  · exact between number lower before
  · exact ⟨key, inQueue key isVisited, by rw [← chain.account], waits⟩

theorem WalkInvariant.admissible_chain (isCurrent : current ∈ visited)
    (lowest : ∀ key ∈ visited, current.rank ≤ key.rank)
    (chain : mempool.Chain current walk pointer) (isSkipped : pointer ∈ walk.skipped) :
    mempool.Admissible seen walk.result pointer := by
  obtain ⟨key, isVisited, isKey, waits⟩ := invariant.skipped _ isSkipped
  have notSeen := chain.absent isSkipped
  have outside : pointer ∉ seen ∧ pointer ∉ walk.result := by
    rw [← not_or, ← invariant.seen]
    exact notSeen
  refine ⟨⟨key, inQueue key isVisited, isKey⟩, outside.1, outside.2, ?_, ?_⟩
  · intro other inIndex same _
    have previous := chain.previous
    rcases Nat.eq_zero_or_pos pointer.2 with zero | positive
    · rw [TxnPointer.previous_of_zero zero] at previous
      obtain ⟨-, closes⟩ := chain.order.resolve_left fun larger => by omega
      refine .inr
        ⟨zero, previous, current, inQueue current isCurrent, chain.account.symm, ?_, closes⟩
      rw [sound.oneKeyEach other inIndex key (inQueue key isVisited) (same.trans isKey.symm)]
      refine lt_of_le_of_ne (lowest key isVisited) fun sameRank => outside.2 ?_
      rw [← isKey, ← OrderedQueueKey.pointer_eq_of_rank_eq sameRank]
      exact chain.started
    · rw [TxnPointer.previous_of_pos positive] at previous
      exact .inl ⟨positive, .inr previous⟩
  · -- the transaction that was visited explains the order
    intro first inIndex isEarlier _ _ _ _
    refine chain.order.symm.imp And.left fun larger => ?_
    refine ⟨current, inQueue current isCurrent, chain.account.symm, larger.1, ?_⟩
    obtain ⟨other, otherVisited, same⟩ := invariant.result _ isEarlier
    rw [← sound.oneKeyEach other (inQueue other otherVisited) first inIndex same]
    exact lowest other otherVisited

/--
The loop over what was skipped keeps the invariant and what each of its steps keeps, and stops
at a full block or at a transaction that was not skipped.
-/
theorem WalkInvariant.takeSkipped {motive : Walk → TxnPointer → Prop}
    (isCurrent : current ∈ visited) (lowest : ∀ key ∈ visited, current.rank ≤ key.rank)
    (batchSize steps : Nat)
    (chain : mempool.Chain current walk pointer) (start : motive walk pointer)
    (step : ∀ walk pointer, mempool.WalkInvariant seen visited walk → motive walk pointer →
      motive (walk.take pointer) pointer.next) :
    mempool.WalkInvariant seen visited (walk.takeSkipped batchSize steps pointer) ∧
      ∃ stop, motive (walk.takeSkipped batchSize steps pointer) stop ∧
        ((walk.skipped \ walk.seen).card ≤ steps →
          (walk.takeSkipped batchSize steps pointer).full batchSize = true ∨
            stop ∉ (walk.takeSkipped batchSize steps pointer).skipped) := by
  induction steps generalizing walk pointer with
  | zero =>
    refine ⟨invariant, pointer, start, fun enough => .inr fun isSkipped => ?_⟩
    have inside : pointer ∈ walk.skipped \ walk.seen :=
      Finset.mem_sdiff.mpr ⟨isSkipped, chain.absent isSkipped⟩
    rw [Finset.card_eq_zero.mp (Nat.le_zero.mp enough)] at inside
    exact Finset.notMem_empty _ inside
  | succ steps ih =>
    rw [Walk.takeSkipped]
    split
    · rename_i next
      obtain ⟨key, isVisited, isKey, -⟩ := invariant.skipped _ next.1
      have admissible := invariant.admissible_chain sound inQueue isCurrent lowest chain next.1
      obtain ⟨result, stop, final, ends⟩ := ih
        (invariant.take admissible ⟨key, isVisited, isKey⟩
          fun _ => (invariant.seen _).mpr (.inr chain.previous))
        (invariant.chain_next sound inQueue chain next.1) (step walk pointer invariant start)
      refine ⟨result, stop, final, fun enough => ends (Nat.le_of_lt_succ ?_)⟩
      -- every step includes one more of what was skipped
      refine lt_of_lt_of_le (Finset.card_lt_card ?_) enough
      refine (Finset.ssubset_iff_of_subset ?_).mpr
        ⟨pointer, Finset.mem_sdiff.mpr ⟨next.1, chain.absent next.1⟩, ?_⟩
      · exact Finset.sdiff_subset_sdiff subset_rfl (Finset.subset_insert _ _)
      · exact fun member => (Finset.mem_sdiff.mp member).2 (Finset.mem_insert_self _ _)
    · rename_i stopped
      refine ⟨invariant, pointer, start, fun _ => ?_⟩
      by_cases isSkipped : pointer ∈ walk.skipped
      · exact .inl (Bool.eq_true_of_not_eq_false fun room => stopped ⟨isSkipped, room⟩)
      · exact .inr isSkipped

end

theorem WalkInvariant.grow (invariant : mempool.WalkInvariant seen visited walk)
    (key : OrderedQueueKey) : mempool.WalkInvariant seen (visited ++ [key]) walk :=
  { invariant with
    result := by
      intro pointer member
      obtain ⟨other, isVisited, same⟩ := invariant.result pointer member
      exact ⟨other, mem_append_left _ isVisited, same⟩
    skipped := by
      intro pointer member
      obtain ⟨other, isVisited, same⟩ := invariant.skipped pointer member
      exact ⟨other, mem_append_left _ isVisited, same⟩ }

section

variable {key : OrderedQueueKey} (invariant : mempool.WalkInvariant seen visited walk)
  (sound : mempool.SoundQueue) (inQueue : ∀ other ∈ visited ++ [key], other ∈ mempool.queue)
  (lower : ∀ other ∈ visited, key.rank < other.rank)
include lower

theorem lowest_of_lower : ∀ other ∈ visited ++ [key], key.rank ≤ other.rank := by
  intro other member
  rcases mem_append.mp member with old | new
  · exact (lower other old).le
  · rw [mem_singleton.mp new]

include invariant sound inQueue

/-- A transaction is included when it is visited. -/
theorem WalkInvariant.take_next (notSeen : key.pointer ∉ walk.seen)
    (isNext : mempool.isNext walk key = true) :
    mempool.WalkInvariant seen (visited ++ [key]) (walk.take key.pointer) := by
  have isLast : key ∈ visited ++ [key] := mem_concat_self
  have outside : key.pointer ∉ seen ∧ key.pointer ∉ walk.result := by
    rw [← not_or, ← invariant.seen]
    exact notSeen
  refine (invariant.grow key).take
    ⟨⟨key, inQueue key isLast, rfl⟩, outside.1, outside.2, ?_, ?_⟩ ⟨key, isLast, rfl⟩ ?_
  · rintro other inIndex same ⟨⟨number, sequential⟩, notCached⟩
    rw [sound.oneKeyEach other inIndex key (inQueue key isLast) same] at sequential notCached
    rw [Mempool.isNext, sequential] at isNext
    simp only [Bool.or_false, Bool.or_eq_true, decide_eq_true_iff] at isNext
    rcases isNext with ⟨positive, isSeen⟩ | cached
    · exact .inl ⟨positive, (invariant.seen _).mp isSeen⟩
    · exact absurd cached notCached
  · -- all transactions before rank higher
    intro first inIndex isEarlier second inIndex' same less
    obtain ⟨other, isVisited, otherSame⟩ := invariant.result _ isEarlier
    have higher := lower other isVisited
    rw [sound.oneKeyEach other (inQueue other (mem_append_left _ isVisited)) first inIndex
      otherSame] at higher
    rw [sound.oneKeyEach second inIndex' key (inQueue key isLast) same] at less
    exact absurd less higher.asymm
  · intro isSkipped
    obtain ⟨other, isVisited, same, -⟩ := invariant.skipped _ isSkipped
    have less := lower other isVisited
    rw [sound.oneKeyEach other (inQueue other (mem_append_left _ isVisited)) key
      (inQueue key isLast) same] at less
    exact less.false.elim

theorem WalkInvariant.visit (batchSize : Nat) :
    mempool.WalkInvariant seen (visited ++ [key]) (mempool.visit batchSize walk key) := by
  have isLast : key ∈ visited ++ [key] := mem_concat_self
  rw [Mempool.visit]
  split
  · exact invariant.grow key
  · rename_i notSeen
    split
    · rename_i isNext
      exact ((invariant.take_next sound inQueue lower notSeen isNext).takeSkipped
        (motive := fun _ _ => True) sound inQueue isLast (lowest_of_lower lower) batchSize _
        ((invariant.grow key).chain_start sound inQueue isLast notSeen)
        trivial fun _ _ _ _ => trivial).1
    · rename_i notNext
      refine { invariant.grow key with skipped := ?_, linked := ?_ }
      · intro pointer member
        rcases Finset.mem_insert.mp member with rfl | old
        · exact ⟨key, isLast, rfl, waits_of_not_isNext notNext⟩
        · exact (invariant.grow key).skipped pointer old
      · intro pointer member isSeen
        rcases Finset.mem_insert.mp member with rfl | old
        · exact absurd isSeen notSeen
        · exact invariant.linked pointer old isSeen

end

variable {batchSize : Nat}

theorem sorted_iter (index : PriorityIndex) :
    (∀ key ∈ index.iter, key ∈ index) ∧
      index.iter.Pairwise fun first second => second.rank < first.rank := by
  refine ⟨fun key member => RankedSet.mem_keys.mp (mem_reverse.mp member), ?_⟩
  rw [PriorityIndex.iter, pairwise_reverse]
  exact index.pairwise_keys

variable (mempool seen batchSize) in
/-- What every visit keeps holds after the walk, which has visited all or filled the block. -/
theorem walkQueue_induction {motive : List OrderedQueueKey → Walk → Prop}
    (start : motive [] ⟨seen, ∅, []⟩)
    (step : ∀ {visited key walk}, (∀ other ∈ visited ++ [key], other ∈ mempool.queue) →
      (∀ other ∈ visited, key.rank < other.rank) → ¬ walk.full batchSize = true →
      motive visited walk → motive (visited ++ [key]) (mempool.visit batchSize walk key)) :
    ∃ visited, motive visited (mempool.walkQueue batchSize ⟨seen, ∅, []⟩ mempool.queue.iter) ∧
      ((mempool.walkQueue batchSize ⟨seen, ∅, []⟩ mempool.queue.iter).full batchSize = true ∨
        visited = mempool.queue.iter) := by
  have general : ∀ {rest visited walk}, (∀ key ∈ visited ++ rest, key ∈ mempool.queue) →
      (visited ++ rest).Pairwise (fun first second => second.rank < first.rank) →
      ¬ walk.full batchSize = true → motive visited walk →
        ∃ visited', motive visited' (mempool.walkQueue batchSize walk rest) ∧
          ((mempool.walkQueue batchSize walk rest).full batchSize = true ∨
            visited' = visited ++ rest) := by
    intro rest
    induction rest with
    | nil => exact fun _ _ _ held => ⟨_, held, .inr (append_nil _).symm⟩
    | cons key rest ih =>
      intro visited walk inQueue decreasing room held
      have lower : ∀ other ∈ visited, key.rank < other.rank := by
        intro other member
        exact (pairwise_append.mp decreasing).2.2 other member key mem_cons_self
      rw [walkQueue]
      rw [← singleton_append, ← append_assoc] at inQueue decreasing ⊢
      have next :=
        step (fun other member => inQueue other (mem_append_left _ member)) lower room held
      split
      · rename_i full
        exact ⟨_, next, .inl full⟩
      · rename_i room
        exact ih inQueue decreasing room next
  obtain ⟨inQueue, decreasing⟩ := sorted_iter mempool.queue
  exact general inQueue decreasing (by simp [Walk.full]) start

theorem WalkInvariant.start (mempool : Mempool Data Hash) (seen : Finset TxnPointer) :
    mempool.WalkInvariant seen [] ⟨seen, ∅, []⟩ :=
  ⟨.nil, by simp, nofun, nofun, nofun⟩

theorem invariant_walkQueue (sound : mempool.SoundQueue) (batchSize : Nat)
    (seen : Finset TxnPointer) :
    ∃ visited, mempool.WalkInvariant seen visited
      (mempool.walkQueue batchSize ⟨seen, ∅, []⟩ mempool.queue.iter) := by
  obtain ⟨visited, invariant, -⟩ := walkQueue_induction mempool seen batchSize
    (WalkInvariant.start mempool seen)
    fun inQueue lower _ invariant => invariant.visit sound inQueue lower batchSize
  exact ⟨visited, invariant⟩

theorem WalkInvariant.ready
    (invariant : mempool.WalkInvariant seen visited walk) (member : pointer ∈ walk.result) :
    mempool.transactions.Ready pointer := by
  obtain ⟨earlier, later, split⟩ := append_of_mem member
  exact (invariant.admitted.of_split split).queued

/-!
## The size of a block
-/

theorem length_takeSkipped_le (steps : Nat) (fits : walk.result.length ≤ batchSize)
    (positive : 0 < walk.result.length) :
    (walk.takeSkipped batchSize steps pointer).result.length ≤ batchSize := by
  induction steps generalizing walk pointer with
  | zero => exact fits
  | succ steps ih =>
    rw [Walk.takeSkipped]
    split
    · rename_i next
      have room := next.2
      rw [Walk.full, decide_eq_false_iff_not] at room
      have longer : (walk.take pointer).result.length = walk.result.length + 1 :=
        length_append
      exact ih (by omega) (by omega)
    · exact fits

theorem length_walkQueue_le (positive : 0 < batchSize) :
    (mempool.walkQueue batchSize ⟨seen, ∅, []⟩ mempool.queue.iter).result.length ≤ batchSize := by
  have step : ∀ {walk : Walk} (key), ¬ walk.full batchSize = true →
      walk.result.length ≤ batchSize →
        (mempool.visit batchSize walk key).result.length ≤ batchSize := by
    intro walk key room fits
    have longer : (walk.take key.pointer).result.length = walk.result.length + 1 := length_append
    rw [Walk.full, decide_eq_true_iff] at room
    rw [visit]
    split
    · exact fits
    · split
      · exact length_takeSkipped_le _ (by omega) (by omega)
      · exact fits
  exact (walkQueue_induction mempool seen batchSize
    (motive := fun _ walk => walk.result.length ≤ batchSize) (Nat.zero_le _)
    fun _ _ room => step _ room).choose_spec.1

/-!
## Blocks
-/

/-- The stored transactions of ready pointers, in order. -/
theorem map_pointer_filterMap_get {store : TransactionStore Data Hash}
    (indexed : store.Indexed hasher pendingSystem pendingExpiration) {pointers : List TxnPointer}
    (ready : ∀ pointer ∈ pointers, store.Ready pointer) :
    (pointers.filterMap fun pointer =>
        store.get pointer.1 pointer.2).map SignedTransaction.pointer =
      pointers := by
  induction pointers with
  | nil => rfl
  | cons pointer pointers ih =>
    obtain ⟨txn, found⟩ := indexed.stored_of_ready (ready pointer mem_cons_self)
    have got : store.get pointer.1 pointer.2 = some txn.txn := by
      change (store.lookup pointer).map MempoolTransaction.txn = some txn.txn
      rw [found]
      rfl
    have atPointer := indexed.keyed pointer txn found
    have own : txn.txn.pointer = pointer := Prod.ext atPointer.sender atPointer.number
    have tail := ih fun other member => ready other (mem_cons_of_mem _ member)
    simp only [filterMap_cons, got, map_cons, own, tail]

/--
The transactions of a block can be executed one after the other; what is exempt after earlier
ones may lack its predecessor and its rank.
-/
structure ExecutableInOrder (mempool : Mempool Data Hash) (batchSize : Nat)
    (seen : Finset TxnPointer)
    (exempt : List (SignedTransaction Data) → SignedTransaction Data → Prop)
    (block : List (SignedTransaction Data)) : Prop where
  size : 0 < batchSize → block.length ≤ batchSize
  distinct : (block.map SignedTransaction.pointer).Nodup
  fresh : ∀ txn ∈ block, txn.pointer ∉ seen
  queued : ∀ txn ∈ block, ∃ key ∈ mempool.queue, key.pointer = txn.pointer
  predecessor : ∀ earlier txn later, block = earlier ++ txn :: later → ¬ exempt earlier txn →
    ∀ key ∈ mempool.queue, key.pointer = txn.pointer →
      ∀ number, key.sequenceNumber.accountSequenceNumberType = .sequential number →
        (0 < txn.sequenceNumber ∧ ((txn.sender, txn.sequenceNumber - 1) ∈ seen ∨
          ∃ previous ∈ earlier, previous.pointer = (txn.sender, txn.sequenceNumber - 1))) ∨
          mempool.sequenceNumberCache.get txn.sender = some txn.sequenceNumber
  ranked : ∀ earlier txn middle other later, block = earlier ++ txn :: (middle ++ other :: later) →
    ¬ exempt (earlier ++ txn :: middle) other →
    ∀ first ∈ mempool.queue, first.pointer = txn.pointer →
      ∀ second ∈ mempool.queue, second.pointer = other.pointer →
        first.rank < second.rank →
          ∃ key ∈ mempool.queue, key.address = other.sender ∧
            key.sequenceNumber.transactionSequenceNumber < other.sequenceNumber ∧
            key.rank ≤ first.rank

/-- The last 64-bit number of the sender is among the earlier transactions. -/
def AfterLast (earlier : List (SignedTransaction Data))
    (txn : SignedTransaction Data) : Prop :=
  ∃ last ∈ earlier, last.pointer = .last txn.sender

theorem executableInOrder_of_admitted {block : List (SignedTransaction Data)}
    (admitted : Admitted (mempool.Admissible seen) (block.map SignedTransaction.pointer))
    (size : 0 < batchSize → block.length ≤ batchSize) :
    mempool.ExecutableInOrder batchSize seen AfterLast block := by
  have admissible : ∀ earlier txn later, block = earlier ++ txn :: later →
    mempool.Admissible seen (earlier.map SignedTransaction.pointer)
      txn.pointer := by
    rintro earlier txn later rfl
    rw [map_append, map_cons] at admitted
    exact admitted.of_split rfl
  refine ⟨size, admitted.nodup fun _ _ ok => ok.new, ?_, ?_, ?_, ?_⟩
  · intro txn member
    obtain ⟨earlier, later, split⟩ := append_of_mem member
    exact (admissible earlier txn later split).fresh
  · intro txn member
    obtain ⟨earlier, later, split⟩ := append_of_mem member
    exact (admissible earlier txn later split).queued
  · intro earlier txn later split ordinary key inIndex same number sequential
    by_cases cached : mempool.sequenceNumberCache.get txn.sender = some txn.sequenceNumber
    · exact .inr cached
    · have waits : mempool.Waits key := by
        refine ⟨⟨number, sequential⟩, ?_⟩
        rw [same]
        exact cached
      have own := (admissible earlier txn later split).predecessor key inIndex same waits
      rw [mem_map, mem_map] at own
      exact .inl (own.resolve_right fun wrapped => ordinary wrapped.2.1)
  · intro earlier txn middle other later split ordinary first inIndex same second inIndex' same'
      less
    have split' : block = (earlier ++ txn :: middle) ++ other :: later := by
      rw [split, append_assoc, cons_append]
    refine ((admissible _ other later split').ranked first inIndex ?_ second inIndex' same'
      less).resolve_left fun wrapped => ordinary (mem_map.mp wrapped)
    rw [same]
    refine mem_map_of_mem ?_
    exact mem_append_right _ mem_cons_self

/--
Blocks can be executed in order, whatever calls were made before, but for what follows the last
64-bit number of its sender.
-/
theorem executableInOrder_getBlock
    [DecidableEq Data]
    (hasher : CommittedHash Data Hash)
    (config : MempoolConfig)
    (calls : List (MempoolCall Data))
    (batchSize : Nat)
    (seen : Finset TxnPointer) :
    ((new config).run hasher calls).ExecutableInOrder batchSize seen AfterLast
      (((new config).run hasher calls).getBlock batchSize seen) := by
  have indexed := indexed_run hasher config calls
  generalize (new config).run hasher calls = mempool at indexed
  obtain ⟨visited, invariant⟩ := invariant_walkQueue (soundQueue_of_indexed indexed) batchSize seen
  have pointers : (mempool.getBlock batchSize seen).map SignedTransaction.pointer = _ :=
    map_pointer_filterMap_get indexed fun pointer => invariant.ready
  refine executableInOrder_of_admitted ?_ ?_
  · rw [pointers]
    exact invariant.admitted
  · intro positive
    have lengths := congrArg length pointers
    rw [length_map] at lengths
    rw [lengths]
    exact length_walkQueue_le positive

/-- A hash for transactions without payload. -/
def plainHash : CommittedHash Unit (Nat ×ₗ Nat ×ₗ Nat ×ₗ Nat ×ₗ Nat) where
  hash := fun txn =>
    toLex (txn.sender, toLex (txn.sequenceNumber, toLex (txn.maxGasAmount,
      toLex (txn.gasUnitPrice, txn.expirationTimestampSecs))))
  injective := by
    rintro ⟨_, _, _, ⟨⟩, _, _, _, ⟨⟩⟩ ⟨_, _, _, ⟨⟩, _, _, _, ⟨⟩⟩ same
    simp only [toLex_inj, Prod.mk.injEq] at same
    obtain ⟨rfl, rfl, rfl, rfl, rfl⟩ := same
    rfl

/-- A transaction without payload. -/
def plainTxn (sender sequenceNumber : Nat) : SignedTransaction Unit where
  sender
  sequenceNumber := Word64.wrap sequenceNumber
  isU64 := Word64.wrap_lt _
  payload := ()
  maxGasAmount := 1
  gasUnitPrice := 1
  expirationTimestampSecs := 1000
  rest := ()

/--
The account 7 has the last number in the queue; the cache forgets it, is told the number zero,
and then the last number again.
-/
def lastThenZero : List (MempoolCall Unit) :=
  let submit (now number score : Nat) : MempoolCall Unit := .addTxn now 0 0
    ⟨plainTxn 7 number, 1, score, .sequential number, .notReady, .nonGovernanceRole⟩
  let later := fromSecs 101
  [submit 0 (2 ^ 64 - 1) 1, .gc later 0, submit later 0 2, submit later (2 ^ 64 - 1) 1]

/-- The number zero was skipped, and follows the last number without its predecessor. -/
theorem executableInOrder_wrapped :
    let mempool := (new ⟨10, 10, 1000⟩).run plainHash lastThenZero
    mempool.getBlock 10 ∅ = [plainTxn 7 (2 ^ 64 - 1), plainTxn 7 0] ∧
      ¬ mempool.ExecutableInOrder 10 ∅ (fun _ _ => False) (mempool.getBlock 10 ∅) := by
  intro mempool
  have block : mempool.getBlock 10 ∅ = [plainTxn 7 (2 ^ 64 - 1), plainTxn 7 0] := by decide +kernel
  refine ⟨block, fun ordered => ?_⟩
  have queue : (mempool.queue.keys.map fun key =>
      (key.pointer, key.sequenceNumber.accountSequenceNumberType)).getLast? =
        some ((7, 0), .sequential 0) := by decide +kernel
  obtain ⟨key, inside, isKey⟩ := mem_map.mp (mem_of_getLast? queue)
  obtain ⟨pointer, kind⟩ := Prod.mk.inj isKey
  rw [block] at ordered
  rcases ordered.predecessor [_] _ [] rfl id key (RankedSet.mem_keys.mp inside) pointer 0 kind with
    ⟨positive, -⟩ | cached
  · exact absurd positive (by decide)
  · exact absurd cached (by decide +kernel)

end Mempool

end Blocks

end Diem.CoreMempool
