import Diem.MempoolIndex

namespace Diem.CoreMempool

open List

/-!
# What the indexes of the mempool do

The parking lot keeps its parts consistent, and all indexes change as sets of pointers
do.
-/

section Specs

variable {Data : Type}

/-- The transactions are stored under their own sender and number. -/
structure MempoolTransaction.At (txn : MempoolTransaction Data)
    (pointer : TxnPointer) : Prop where
  sender : txn.txn.sender = pointer.1
  number : txn.txn.sequenceNumber = pointer.2
  info : txn.sequenceInfo.transactionSequenceNumber = pointer.2

variable {txn : MempoolTransaction Data} {pointer : TxnPointer} {position : Nat}

theorem OrderedQueueKey.pointer_eq_of_rank_eq {first second : OrderedQueueKey}
    (same : first.rank = second.rank) : first.pointer = second.pointer := by
  simp only [rank, toLex_inj, Prod.mk.injEq, OrderDual.toDual_inj] at same
  obtain ⟨-, -, -, address, number⟩ := same
  rw [pointer, pointer, address, number]

theorem TTLOrderingKey.rank_injective : Function.Injective TTLOrderingKey.rank := by
  intro first second same
  simp only [rank, toLex_inj, Prod.mk.injEq] at same
  obtain ⟨time, address, number⟩ := same
  cases first
  cases second
  cases time
  cases address
  cases number
  rfl

/-!
## The parking lot
-/

namespace ParkingLotIndex

/-- The parts of the parking lot agree. -/
structure WellFormed (index : ParkingLotIndex) : Prop where
  nonempty : ∀ entry ∈ index.data, entry.2.Nonempty
  positions : ∀ account position, index.accountIndices.get? account = some position ↔
    ∃ seqNums, index.data[position]? = some (account, seqNums)
  counted : index.size = (index.data.map fun entry => entry.2.card).sum

theorem WellFormed.new : ParkingLotIndex.new.WellFormed where
  nonempty := nofun
  positions := by
    intro account position
    exact iff_of_false nofun nofun
  counted := rfl

variable {index : ParkingLotIndex} {account : AccountAddress}

/-- What is parked, in terms of the entries. -/
theorem contains_eq_true_iff {seqNum : Nat} :
    index.contains account seqNum = true ↔ ∃ position entry,
      index.accountIndices.get? account = some position ∧ index.data[position]? = some entry ∧
        seqNum ∈ entry.2 := by
  rw [contains]
  cases found : index.accountIndices.get? account with
  | none => simp
  | some position =>
    cases stored : index.data[position]? with
    | none => simp [stored]
    | some entry =>
      obtain ⟨owner, seqNums⟩ := entry
      simp [stored]

theorem WellFormed.contains_iff (valid : index.WellFormed) {seqNum : Nat} :
    index.contains account seqNum = true ↔
      ∃ seqNums, (account, seqNums) ∈ index.data ∧ seqNum ∈ seqNums := by
  rw [contains_eq_true_iff]
  constructor
  · rintro ⟨position, entry, found, stored, member⟩
    obtain ⟨seqNums, same⟩ := (valid.positions account position).mp found
    rw [stored, Option.some.injEq] at same
    subst same
    exact ⟨seqNums, mem_of_getElem? stored, member⟩
  · rintro ⟨seqNums, member, inside⟩
    obtain ⟨position, stored⟩ := mem_iff_getElem?.mp member
    exact ⟨position, (account, seqNums),
      (valid.positions account position).mpr ⟨seqNums, stored⟩, stored, inside⟩

theorem WellFormed.position_unique (valid : index.WellFormed) {first second : Nat}
    {firstNums secondNums : Finset Nat}
    (firstStored : index.data[first]? = some (account, firstNums))
    (secondStored : index.data[second]? = some (account, secondNums)) : first = second := by
  have firstFound := (valid.positions account first).mpr ⟨firstNums, firstStored⟩
  have secondFound := (valid.positions account second).mpr ⟨secondNums, secondStored⟩
  exact Option.some.inj (firstFound.symm.trans secondFound)

variable {seqNums : Finset Nat} {size : Nat} {others : Finset Nat}

section

variable (valid : index.WellFormed) (stored : index.data[position]? = some (account, seqNums))
include valid stored

/-- Replacing the numbers of an account by others that are not empty. -/
theorem WellFormed.set (nonempty : others.Nonempty)
    (counted : size + seqNums.card = index.size + others.card) :
    ({ index with
        data := index.data.set position (account, others)
        size := size } : ParkingLotIndex).WellFormed := by
  obtain ⟨rest, before, after⟩ := set_perm stored (account, others)
  have inside := (List.getElem?_eq_some_iff.mp stored).1
  refine ⟨?_, ?_, ?_⟩
  · intro entry member
    rcases mem_cons.mp (after.mem_iff.mp member) with rfl | old
    · exact nonempty
    · exact valid.nonempty entry (before.mem_iff.mpr (mem_cons_of_mem _ old))
  · intro other place
    rw [valid.positions, getElem?_set]
    by_cases same : position = place
    · subst same
      rw [if_pos rfl, if_pos inside, stored]
      simp
    · rw [if_neg same]
  · have oldSum := (before.map fun entry : AccountAddress × Finset Nat => entry.2.card).sum_eq
    have newSum := (after.map fun entry : AccountAddress × Finset Nat => entry.2.card).sum_eq
    rw [map_cons, sum_cons, ← valid.counted] at oldSum
    rw [map_cons, sum_cons] at newSum
    rw [newSum]
    dsimp only at oldSum ⊢
    omega

theorem contains_set_iff (size : Nat) (other : AccountAddress) (seqNum : Nat) :
    ({ index with
        data := index.data.set position (account, others)
        size := size } : ParkingLotIndex).contains other seqNum = true ↔
      if other = account then seqNum ∈ others
      else index.contains other seqNum = true := by
  have inside := (List.getElem?_eq_some_iff.mp stored).1
  have ownPosition := (valid.positions account position).mpr ⟨seqNums, stored⟩
  rw [contains_eq_true_iff]
  split
  · rename_i same
    subst same
    constructor
    · rintro ⟨place, entry, found, there, member⟩
      rw [ownPosition] at found
      cases found
      rw [getElem?_set_self inside] at there
      cases there
      exact member
    · intro member
      exact ⟨position, _, ownPosition, getElem?_set_self inside, member⟩
  · rename_i different
    rw [contains_eq_true_iff]
    refine exists_congr fun place => exists_congr fun entry => and_congr_right fun found => ?_
    obtain ⟨otherNums, there⟩ := (valid.positions other place).mp found
    have apart : position ≠ place := by
      rintro rfl
      rw [stored] at there
      cases there
      exact different rfl
    rw [getElem?_set_ne apart]

end

theorem WellFormed.insert (valid : index.WellFormed) (atPointer : txn.At pointer) :
    (index.insert txn).WellFormed ∧
      ∀ account seqNum, (index.insert txn).contains account seqNum = true ↔
        (account, seqNum) = pointer ∨ index.contains account seqNum = true := by
  obtain ⟨sender, number⟩ := pointer
  rw [ParkingLotIndex.insert, atPointer.sender, atPointer.number]
  cases found : index.accountIndices.get? sender with
  | some position =>
    obtain ⟨seqNums, stored⟩ := (valid.positions sender position).mp found
    dsimp only
    rw [stored]
    have own : ∀ seqNum, index.contains sender seqNum = true ↔ seqNum ∈ seqNums := by
      intro seqNum
      rw [contains_eq_true_iff]
      simp [found, stored]
    constructor
    · refine valid.set stored (Finset.insert_nonempty _ _) ?_
      by_cases member : number ∈ seqNums
      · rw [if_pos member, Finset.insert_eq_of_mem member]
      · rw [if_neg member, Finset.card_insert_of_notMem member]
        omega
    · intro account seqNum
      rw [contains_set_iff valid stored]
      split
      · rename_i same
        subst same
        rw [own, Finset.mem_insert, Prod.mk.injEq, and_iff_right rfl]
      · rename_i different
        rw [Prod.mk.injEq, or_iff_right]
        exact fun both => different both.1
  | none =>
    have absent : ∀ seqNums, (sender, seqNums) ∉ index.data := by
      intro seqNums member
      obtain ⟨position, stored⟩ := mem_iff_getElem?.mp member
      have there := (valid.positions sender position).mpr ⟨_, stored⟩
      rw [found] at there
      cases there
    have result :
        (⟨index.data ++ [(sender, {number})], index.accountIndices.insert sender index.data.length,
          index.size + 1⟩ : ParkingLotIndex).WellFormed := by
      refine ⟨?_, ?_, ?_⟩
      · intro entry member
        rcases mem_append.mp member with old | new
        · exact valid.nonempty entry old
        · rw [mem_singleton.mp new]
          exact Finset.singleton_nonempty number
      · intro account position
        rw [OrderedMap.get?_insert]
        simp only [getElem?_concat_iff]
        by_cases same : sender = account
        · subst same
          rw [if_pos rfl, Option.some.injEq]
          constructor
          · rintro rfl
            exact ⟨_, .inr ⟨rfl, rfl⟩⟩
          · rintro ⟨seqNums, there | ⟨last, -⟩⟩
            · exact (absent seqNums (mem_of_getElem? there)).elim
            · exact last.symm
        · rw [if_neg same, valid.positions]
          refine exists_congr fun seqNums => (or_iff_left ?_).symm
          rintro ⟨-, both⟩
          cases both
          exact same rfl
      · dsimp only
        rw [map_append, sum_append, ← valid.counted]
        rfl
    refine ⟨result, fun account seqNum => ?_⟩
    rw [result.contains_iff, valid.contains_iff]
    constructor
    · rintro ⟨seqNums, member, inside⟩
      rcases mem_append.mp member with old | new
      · exact .inr ⟨seqNums, old, inside⟩
      · cases mem_singleton.mp new
        exact .inl (congrArg _ (Finset.mem_singleton.mp inside))
    · rintro (same | ⟨seqNums, member, inside⟩)
      · cases same
        exact ⟨{number}, mem_append_right _ mem_cons_self, Finset.mem_singleton_self number⟩
      · exact ⟨seqNums, mem_append_left _ member, inside⟩

variable {sender : AccountAddress}

section

variable (valid : index.WellFormed)
include valid

section

variable (stored : index.data[position]? = some (sender, seqNums))
include stored

/-- The positions after an account was dropped. -/
theorem WellFormed.get?_dropAccount {last : AccountAddress × Finset Nat}
    (lastStored : index.data[index.data.length - 1]? = some last) (account : AccountAddress) :
    (({ index with size := size } : ParkingLotIndex).dropAccount sender
        position).accountIndices.get? account =
      if account = sender then none
      else if account = last.1 then some position
      else index.accountIndices.get? account := by
  have inside := (List.getElem?_eq_some_iff.mp stored).1
  rw [ParkingLotIndex.dropAccount]
  rw [getElem?_swapRemove inside, lastStored]
  by_cases early : position + 1 < index.data.length
  · have different : last.1 ≠ sender := by
      rintro rfl
      have same := valid.position_unique stored lastStored
      omega
    rw [if_pos early, if_pos rfl]
    rw [OrderedMap.get?_insert, OrderedMap.get?_erase]
    grind
  · have same : position = index.data.length - 1 := by omega
    rw [← same, stored] at lastStored
    cases lastStored
    rw [if_neg early]
    rw [OrderedMap.get?_erase]
    grind

/-- They are those of the entries. -/
theorem WellFormed.positions_dropAccount (account : AccountAddress) (place : Nat) :
    (({ index with size := size } : ParkingLotIndex).dropAccount sender
        position).accountIndices.get? account = some place ↔
      ∃ others, (swapRemove index.data position)[place]? = some (account, others) := by
  have inside := (List.getElem?_eq_some_iff.mp stored).1
  obtain ⟨⟨lastAccount, lastNums⟩, lastStored⟩ :
      ∃ last, index.data[index.data.length - 1]? = some last :=
    ⟨_, getElem?_eq_getElem (by omega)⟩
  rw [valid.get?_dropAccount stored lastStored, getElem?_swapRemove inside, lastStored]
  by_cases isSender : account = sender
  · -- the dropped account has no entry any more
    subst isSender
    rw [if_pos rfl]
    refine iff_of_false nofun ?_
    rintro ⟨others, there⟩
    split at there
    · split at there
      · cases there
        have same := valid.position_unique stored lastStored
        omega
      · have same := valid.position_unique stored there
        omega
    · cases there
  · rw [if_neg isSender]
    have notDropped : ∀ others, index.data[position]? ≠ some (account, others) := by
      intro others there
      rw [stored] at there
      cases there
      exact isSender rfl
    by_cases isLast : account = lastAccount
    · -- the last account is at the free position
      subst isLast
      have apart : position ≠ index.data.length - 1 := by
        rintro same
        rw [← same] at lastStored
        exact notDropped _ lastStored
      rw [if_pos rfl, Option.some.injEq]
      constructor
      · rintro rfl
        rw [if_pos (by omega), if_pos rfl]
        exact ⟨lastNums, rfl⟩
      · rintro ⟨others, there⟩
        split at there
        · split at there
          · rename_i same
            exact same.symm
          · have same := valid.position_unique lastStored there
            omega
        · cases there
    · -- all others stay where they are
      rw [if_neg isLast, valid.positions]
      refine exists_congr fun others => ?_
      constructor
      · intro there
        have bound := (List.getElem?_eq_some_iff.mp there).1
        have notLast : place ≠ index.data.length - 1 := by
          rintro rfl
          rw [lastStored] at there
          cases there
          exact isLast rfl
        have apart : place ≠ position := by
          rintro rfl
          exact notDropped _ there
        rw [if_pos (by omega), if_neg apart]
        exact there
      · intro there
        split at there
        · split at there
          · cases there
            exact (isLast rfl).elim
          · exact there
        · cases there

/-- Dropping an account moves the last one to its position. -/
theorem WellFormed.dropAccount (counted : size + seqNums.card = index.size) :
    (({ index with size := size } : ParkingLotIndex).dropAccount sender position).WellFormed ∧
      ∀ account seqNum, (({ index with size := size } : ParkingLotIndex).dropAccount sender
          position).contains account seqNum = true ↔
        account ≠ sender ∧ index.contains account seqNum = true := by
  have inside := (List.getElem?_eq_some_iff.mp stored).1
  have perm := swapRemove_perm stored
  have result :
      (({ index with size := size } : ParkingLotIndex).dropAccount sender position).WellFormed := by
    refine ⟨?_, ?_, ?_⟩
    · intro entry member
      exact valid.nonempty entry (perm.mem_iff.mpr (mem_cons_of_mem _ member))
    · exact valid.positions_dropAccount stored
    · have sum := (perm.map fun entry : AccountAddress × Finset Nat => entry.2.card).sum_eq
      rw [map_cons, sum_cons, ← valid.counted] at sum
      change size = ((swapRemove index.data position).map fun entry => entry.2.card).sum
      dsimp only at sum
      omega
  refine ⟨result, fun account seqNum => ?_⟩
  rw [result.contains_iff, valid.contains_iff]
  constructor
  · rintro ⟨others, member, contained⟩
    refine ⟨?_, others, perm.mem_iff.mpr (mem_cons_of_mem _ member), contained⟩
    rintro rfl
    obtain ⟨place, there⟩ := mem_iff_getElem?.mp member
    have again := (result.positions account place).mpr ⟨others, there⟩
    have last : index.data[index.data.length - 1]? =
          some (index.data.get ⟨index.data.length - 1, by omega⟩) :=
      getElem?_eq_getElem (by omega)
    rw [valid.get?_dropAccount stored last, if_pos rfl] at again
    cases again
  · rintro ⟨different, others, member, contained⟩
    rcases mem_cons.mp (perm.mem_iff.mp member) with same | kept
    · cases same
      exact (different rfl).elim
    · exact ⟨others, kept, contained⟩

end


/-- Taking a transaction out of the parking lot. -/
theorem WellFormed.remove (atPointer : txn.At pointer) :
    (index.remove txn).WellFormed ∧
      ∀ account seqNum, (index.remove txn).contains account seqNum = true ↔
        (account, seqNum) ≠ pointer ∧ index.contains account seqNum = true := by
  obtain ⟨sender, number⟩ := pointer
  rw [ParkingLotIndex.remove, atPointer.sender, atPointer.number]
  cases found : index.accountIndices.get? sender with
  | none =>
    have absent : ∀ seqNum, index.contains sender seqNum = false := by
      intro seqNum
      rw [contains, found]
    refine ⟨valid, fun account seqNum => ?_⟩
    rw [iff_and_self]
    rintro contained same
    cases same
    rw [absent] at contained
    cases contained
  | some position =>
    obtain ⟨seqNums, stored⟩ := (valid.positions sender position).mp found
    dsimp only
    rw [stored]
    dsimp only
    have own : ∀ seqNum, index.contains sender seqNum = true ↔ seqNum ∈ seqNums := by
      intro seqNum
      rw [contains_eq_true_iff]
      simp [found, stored]
    have nonempty : seqNums.Nonempty := valid.nonempty _ (mem_of_getElem? stored)
    have size : (if number ∈ seqNums then index.size - 1 else index.size) + seqNums.card =
          index.size + (seqNums.erase number).card := by
      have enough : seqNums.card ≤ index.size := by
        rw [valid.counted]
        exact le_sum_of_mem (mem_map_of_mem (mem_of_getElem? stored))
      have positive := nonempty.card_pos
      by_cases member : number ∈ seqNums
      · rw [if_pos member, Finset.card_erase_of_mem member]
        omega
      · rw [if_neg member, Finset.erase_eq_of_notMem member]
    by_cases empty : seqNums.erase number = ∅
    · rw [if_pos empty]
      rw [empty, Finset.card_empty, Nat.add_zero] at size
      obtain ⟨result, contained⟩ := valid.dropAccount stored size
      refine ⟨result, fun account seqNum => ?_⟩
      rw [contained]
      by_cases same : account = sender
      · subst same
        rw [own]
        refine iff_of_false (fun both => both.1 rfl) ?_
        rintro ⟨different, member⟩
        have rest : seqNum ∈ seqNums.erase number :=
          Finset.mem_erase.mpr ⟨fun same => different (congrArg _ same), member⟩
        rw [empty] at rest
        exact Finset.notMem_empty _ rest
      · refine and_congr_left fun _ => iff_of_true same ?_
        rintro ⟨⟩
        exact same rfl
    · rw [if_neg empty]
      refine ⟨valid.set stored (Finset.nonempty_iff_ne_empty.mpr empty)
        size, fun account seqNum => ?_⟩
      rw [contains_set_iff valid stored]
      split
      · rename_i same
        subst same
        rw [own, Finset.mem_erase]
        refine and_congr_left fun _ => not_congr ?_
        rw [Prod.mk.injEq, and_iff_right rfl]
      · rename_i different
        rw [iff_and_self]
        rintro - ⟨⟩
        exact different rfl

end

end ParkingLotIndex

end Specs

end Diem.CoreMempool
