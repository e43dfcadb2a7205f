import Diem.AccumulatorConsistency
import Diem.LedgerStore

namespace Diem

open Fallible (ensure okOr ok_bind)
open MerkleForest InMemoryAccumulator
open InMemoryAccumulator (LeavesFrom)
open MerkleAccumulator (frozenRange stored Holds)
open OrderedMap List

/-!
# Ledgers and the stores that hold them

A ledger is the list of its epoch changes with the latest ledger info of the open epoch.
Saving what the validators of the open epoch certify keeps a store that holds a ledger.
-/

section OrderedMaps

variable {Value : Type} (items : List Value)

/-- The map from positions to the elements of a list. -/
def OrderedMap.ofList : OrderedMap Nat Value where
  entries := items.zipIdx.map Prod.swap
  sorted := by
    rw [map_map]
    change (items.zipIdx.map Prod.snd).Pairwise (· < ·)
    rw [zipIdx_map_snd]
    exact pairwise_lt_range'

theorem OrderedMap.get?_ofList (position : Nat) :
    (ofList items).get? position = items[position]? := by
  ext value
  rw [get?_eq_some_iff, ofList, mem_map]
  constructor
  · rintro ⟨⟨item, index⟩, member, same⟩
    cases same
    exact mem_zipIdx_iff_getElem?.mp member
  · intro found
    exact ⟨(value, position), mem_zipIdx_iff_getElem?.mpr found, rfl⟩

/-- Replacing the last element, or adding one. -/
theorem OrderedMap.insert_ofList (last : Option Value) (value : Value) :
    (ofList (items ++ last.toList)).insert items.length value = ofList (items ++ [value]) := by
  refine ext_get? fun position => ?_
  rw [get?_insert, get?_ofList, get?_ofList]
  rcases lt_trichotomy position items.length with before | rfl | after
  · rw [if_neg before.ne', getElem?_append_left before, getElem?_append_left before]
  · rw [if_pos rfl, getElem?_concat_length]
  · rw [if_neg after.ne, getElem?_eq_none, getElem?_eq_none]
    · rw [length_append, length_singleton]
      omega
    · rw [length_append]
      have atMost : last.toList.length ≤ 1 := by cases last <;> simp
      omega

theorem filter_zipIdx_swap (first start : Nat) :
    ((items.zipIdx first).map Prod.swap).filter (fun entry => start ≤ entry.1) =
      ((items.drop (start - first)).zipIdx (max first start)).map Prod.swap := by
  induction items generalizing first with
  | nil => simp
  | cons item items ih =>
    rw [zipIdx_cons, map_cons, filter_cons]
    by_cases inside : start ≤ first
    · have all : start - first = 0 := by omega
      have next : start - (first + 1) = 0 := by omega
      have rest := ih (first + 1)
      rw [next, drop_zero, max_eq_left (by omega)] at rest
      rw [if_pos (by simpa using inside), all, drop_zero,
        max_eq_left inside, zipIdx_cons, map_cons, rest]
    · have some : start - first = start - (first + 1) + 1 := by omega
      rw [if_neg (by simpa using inside), ih, some, drop_succ_cons,
        max_eq_right (by omega), max_eq_right (by omega)]

end OrderedMaps

/-- The epoch changes of a ledger and the latest ledger info of the open epoch. -/
structure Ledger where
  size : Nat
  ending : List LedgerInfoWithSignatures
  current : Option LedgerInfoWithSignatures

variable {crypto : Crypto} {leaf : Nat → HashValue} {store : LedgerStore}
  {ledger : Ledger}

variable {signed : LedgerInfoWithSignatures}

namespace Ledger

/-- The ledger without transactions. -/
def empty : Ledger where
  size := 0
  ending := []
  current := none

variable (crypto leaf ledger)

/-- The newest ledger info. -/
def latest : Option LedgerInfoWithSignatures :=
  (ledger.ending ++ ledger.current.toList).getLast?

/-- The validators that a ledger info installs have signed another one. -/
def Installs (earlier later : LedgerInfoWithSignatures) : Prop :=
  ∃ state, earlier.ledgerInfo.nextEpochState = some state ∧
    (Verifier.epochState state).verify crypto later = .ok ()

/-- The ledger info belongs to the first transactions of the ledger. -/
structure Describes (size : Nat) (signed : LedgerInfoWithSignatures) : Prop where
  version : signed.ledgerInfo.version < size
  rootHash : signed.ledgerInfo.transactionAccumulatorHash =
    MerkleForest.rootHash crypto.transactionAccumulator leaf (signed.ledgerInfo.version + 1)

/-- The epochs of a ledger follow each other. -/
structure WellFormed : Prop where
  small : ledger.size < 2 ^ 63
  ends : ∀ (epoch : Nat) signed, ledger.ending[epoch]? = some signed →
    signed.ledgerInfo.epoch = epoch ∧
      ∃ state, signed.ledgerInfo.nextEpochState = some state ∧ state.epoch = epoch + 1
  chained : ∀ (epoch : Nat) first second, ledger.ending[epoch]? = some first →
    (ledger.ending ++ ledger.current.toList)[epoch + 1]? = some second →
      Installs crypto first second ∧ first.ledgerInfo.version < second.ledgerInfo.version
  opened : ∀ signed, ledger.current = some signed →
    signed.ledgerInfo.nextEpochState = none ∧ signed.ledgerInfo.epoch = ledger.ending.length ∧
      ledger.ending ≠ []
  describes :
    ∀ signed ∈ ledger.ending ++ ledger.current.toList, Describes crypto leaf ledger.size signed

/-- A batch of transactions, with a ledger info that ends with it. -/
structure Save where
  leaves : List HashValue
  signed : Option LedgerInfoWithSignatures
  deriving DecidableEq

/-- The ledger info is certified as the next one of the ledger. -/
structure Certifies (size : Nat) (signed : LedgerInfoWithSignatures) : Prop where
  version : signed.ledgerInfo.version + 1 = size
  rootHash : signed.ledgerInfo.transactionAccumulatorHash =
    MerkleForest.rootHash crypto.transactionAccumulator leaf size
  epoch : signed.ledgerInfo.epoch = ledger.ending.length
  next : ∀ state,
    signed.ledgerInfo.nextEpochState = some state → state.epoch = signed.ledgerInfo.epoch + 1
  genesis : ledger.ending = [] → signed.ledgerInfo.endsEpoch = true
  chained : ∀ last, ledger.ending.getLast? = some last →
    Installs crypto last signed ∧ last.ledgerInfo.version < signed.ledgerInfo.version

/-- The batch continues the ledger. -/
structure Admits (save : Save) : Prop where
  notEmpty : save.signed.isSome = true ∨ 0 < save.leaves.length
  leaves : LeavesFrom leaf ledger.size save.leaves
  small : ledger.size + save.leaves.length < 2 ^ 63
  certified : ∀ signed, save.signed = some signed →
    ledger.Certifies crypto leaf (ledger.size + save.leaves.length) signed

def add (signed : LedgerInfoWithSignatures) : Ledger :=
  if signed.ledgerInfo.endsEpoch = true then
    { ledger with ending := ledger.ending ++ [signed], current := none }
  else
    { ledger with current := some signed }

/-- The ledger after a commit. -/
def extend (save : Save) : Ledger :=
  let grown := { ledger with size := ledger.size + save.leaves.length }
  match save.signed with
  | some signed => grown.add signed
  | none => grown

variable {crypto leaf ledger}

theorem wellFormed_empty : Ledger.empty.WellFormed crypto leaf where
  small := by decide
  ends := nofun
  chained := nofun
  opened := nofun
  describes := nofun

theorem found_all {epoch : Nat} (found : ledger.ending[epoch]? = some signed) :
    (ledger.ending ++ ledger.current.toList)[epoch]? = some signed := by
  rw [getElem?_append_left (List.getElem?_eq_some_iff.mp found).1]
  exact found

theorem ending_add (ledger : Ledger) (signed : LedgerInfoWithSignatures) :
    (ledger.add signed).ending ++ (ledger.add signed).current.toList =
      ledger.ending ++ [signed] := by
  rw [add]
  split
  · simp
  · rfl

theorem size_add (ledger : Ledger) (signed : LedgerInfoWithSignatures) :
    (ledger.add signed).size = ledger.size := by
  rw [add]
  split <;> rfl

variable (valid : ledger.WellFormed crypto leaf) {first second : Nat}
  {earlier later : LedgerInfoWithSignatures}
include valid

theorem WellFormed.grow {count : Nat} (small : ledger.size + count < 2 ^ 63) :
    ({ ledger with size := ledger.size + count } : Ledger).WellFormed crypto leaf :=
  { valid with
    small := small
    describes := by
      intro signed member
      have old := valid.describes signed member
      exact ⟨old.version.trans_le (Nat.le_add_right _ _), old.rootHash⟩ }

/-- The versions grow with the epochs. -/
theorem WellFormed.version_lt (order : first < second)
    (foundEarlier : ledger.ending[first]? = some earlier)
    (foundLater : (ledger.ending ++ ledger.current.toList)[second]? = some later) :
    earlier.ledgerInfo.version < later.ledgerInfo.version := by
  induction second generalizing later with
  | zero => exact absurd order (Nat.not_lt_zero _)
  | succ second ih =>
    have inside : second < ledger.ending.length := by
      have bound := (List.getElem?_eq_some_iff.mp foundLater).1
      have atMost : ledger.current.toList.length ≤ 1 := by
        cases ledger.current <;> simp
      rw [length_append] at bound
      omega
    have foundMiddle := getElem?_eq_getElem inside
    have step := (valid.chained second _ later foundMiddle foundLater).2
    rcases Nat.lt_succ_iff_lt_or_eq.mp order with before | rfl
    · exact (ih before (found_all foundMiddle)).trans step
    · rw [foundEarlier, Option.some.injEq] at foundMiddle
      rw [foundMiddle]
      exact step

theorem WellFormed.version_le (order : first ≤ second)
    (foundEarlier : ledger.ending[first]? = some earlier)
    (foundLater : (ledger.ending ++ ledger.current.toList)[second]? = some later) :
    earlier.ledgerInfo.version ≤ later.ledgerInfo.version := by
  rcases order.eq_or_lt with rfl | before
  · rw [found_all foundEarlier] at foundLater
    cases foundLater
    exact le_rfl
  · exact (valid.version_lt before foundEarlier foundLater).le

theorem WellFormed.add {size : Nat}
    (certifies : ledger.Certifies crypto leaf size signed) (grown : ledger.size = size) :
    (ledger.add signed).WellFormed crypto leaf := by
  have ends : ∀ (epoch : Nat) other, (ledger.add signed).ending[epoch]? = some other →
    ledger.ending[epoch]? = some other ∨
      epoch = ledger.ending.length ∧ other = signed ∧ signed.ledgerInfo.endsEpoch = true := by
    intro epoch other found
    rw [Ledger.add] at found
    split at found
    · rename_i isEnding
      rcases getElem?_concat_iff.mp found with old | ⟨last, same⟩
      · exact .inl old
      · exact .inr ⟨last, same, isEnding⟩
    · exact .inl found
  refine ⟨?_, ?_, ?_, ?_, ?_⟩
  · rw [size_add]
    exact valid.small
  · intro epoch other found
    rcases ends epoch other found with old | ⟨rfl, rfl, isEnding⟩
    · exact valid.ends epoch other old
    · obtain ⟨state, installs⟩ := Option.isSome_iff_exists.mp isEnding
      refine ⟨certifies.epoch, state, installs, ?_⟩
      rw [certifies.next state installs, certifies.epoch]
  · intro epoch first second firstFound secondFound
    rw [ending_add] at secondFound
    have old : ledger.ending[epoch]? = some first := by
      rcases ends epoch first firstFound with old | ⟨rfl, -⟩
      · exact old
      · rw [getElem?_eq_none (by simp)] at secondFound
        cases secondFound
    have inside := (List.getElem?_eq_some_iff.mp old).1
    by_cases last : epoch + 1 < ledger.ending.length
    · refine valid.chained epoch first second old ?_
      rw [getElem?_append_left last] at secondFound ⊢
      exact secondFound
    · have position : epoch + 1 = ledger.ending.length := by omega
      rw [position, getElem?_concat_length] at secondFound
      cases secondFound
      refine certifies.chained first ?_
      rw [getLast?_eq_getElem?, ← position, Nat.add_sub_cancel]
      exact old
  · intro other found
    rw [Ledger.add] at found ⊢
    split at found
    · cases found
    · rename_i notEnding
      cases found
      rw [if_neg notEnding]
      refine ⟨?_, certifies.epoch, ?_⟩
      · rw [LedgerInfo.endsEpoch] at notEnding
        exact Option.not_isSome_iff_eq_none.mp notEnding
      · intro none
        exact notEnding (certifies.genesis none)
  · intro other member
    rw [ending_add] at member
    rw [size_add]
    rcases mem_append.mp member with old | new
    · exact valid.describes other (mem_append_left _ old)
    · rw [mem_singleton.mp new]
      refine ⟨?_, ?_⟩
      · rw [grown, ← certifies.version]
        exact Nat.lt_succ_self _
      · rw [certifies.version]
        exact certifies.rootHash

/-- A batch that continues a ledger keeps its epochs in order. -/
theorem WellFormed.extend {save : Save} (admits : ledger.Admits crypto leaf save) :
    (ledger.extend save).WellFormed crypto leaf := by
  have grown := valid.grow admits.small
  rw [Ledger.extend]
  split
  · rename_i signed found
    have certifies := admits.certified signed found
    exact grown.add { certifies with } rfl
  · exact grown

end Ledger

variable (valid : ledger.WellFormed crypto leaf)

namespace LedgerStore

variable (crypto leaf store ledger) in
/-- The tables hold a ledger. -/
structure Stores : Prop where
  ledgerInfos : store.ledgerInfos = .ofList (ledger.ending ++ ledger.current.toList)
  epochByVersion : ∀ version epoch, store.epochByVersion.get? version = some epoch ↔
    ∃ signed, ledger.ending[epoch]? = some signed ∧ signed.ledgerInfo.version = version
  transactionAccumulator : store.transactionAccumulator =
    (frozenRange 0 ledger.size).map (stored crypto.transactionAccumulator leaf)
  latestLedgerInfo : store.latestLedgerInfo = ledger.latest

theorem stores_empty : Stores crypto leaf LedgerStore.empty Ledger.empty where
  ledgerInfos := rfl
  epochByVersion := by
    intro version epoch
    exact iff_of_false nofun nofun
  transactionAccumulator := rfl
  latestLedgerInfo := rfl

section

variable (stores : Stores crypto leaf store ledger)
include stores

theorem Stores.holds (small : ledger.size < 2 ^ 63) :
    Holds crypto.transactionAccumulator leaf store.reader ledger.size := by
  rw [reader, stores.transactionAccumulator]
  exact MerkleAccumulator.holds_readerOf _ _ small

include valid

/-- Storing the next ledger info of a ledger. -/
theorem Stores.putLedgerInfo {size : Nat} (certifies : ledger.Certifies crypto leaf size signed) :
    Stores crypto leaf (store.putLedgerInfo signed) (ledger.add signed) := by
  refine ⟨?_, ?_, ?_, ?_⟩
  · rw [Ledger.ending_add, LedgerStore.putLedgerInfo, stores.ledgerInfos, certifies.epoch]
    exact insert_ofList _ _ _
  · intro version epoch
    rw [LedgerStore.putLedgerInfo, Ledger.add]
    split
    · rename_i isEnding
      rw [get?_insert, certifies.epoch]
      -- the version is after all versions that end an epoch
      have fresh : ∀ (other : Nat) first, ledger.ending[other]? = some first →
        first.ledgerInfo.version < signed.ledgerInfo.version := by
        intro other first found
        have inside := (List.getElem?_eq_some_iff.mp found).1
        have lastInside : ledger.ending.length - 1 < ledger.ending.length := by omega
        have lastFound := getElem?_eq_getElem lastInside
        have step := (certifies.chained _ (getLast?_eq_getElem?.trans lastFound)).2
        have notLast : other ≤ ledger.ending.length - 1 := by omega
        exact (valid.version_le notLast found (Ledger.found_all lastFound)).trans_lt step
      split
      · rename_i same
        subst same
        rw [Option.some.injEq]
        constructor
        · rintro rfl
          exact ⟨signed, getElem?_concat_length, rfl⟩
        · rintro ⟨first, found, sameVersion⟩
          rcases getElem?_concat_iff.mp found with old | ⟨last, -⟩
          · have less := fresh epoch first old
            omega
          · exact last.symm
      · rename_i different
        rw [stores.epochByVersion]
        refine exists_congr fun first => and_congr_left fun sameVersion => ?_
        rw [getElem?_concat_iff, or_iff_left]
        rintro ⟨-, rfl⟩
        exact different sameVersion
    · exact stores.epochByVersion version epoch
  · rw [Ledger.size_add]
    exact stores.transactionAccumulator
  · rw [Ledger.latest, Ledger.ending_add, getLast?_concat]
    rfl

/-- Saving a batch that continues the ledger. -/
theorem Stores.saveTransactions {save : Ledger.Save} (admits : ledger.Admits crypto leaf save) :
    ∃ saved, store.saveTransactions crypto.transactionAccumulator save.leaves
        ledger.size save.signed = .ok saved ∧
      Stores crypto leaf saved (ledger.extend save) := by
  have appended := MerkleAccumulator.append_eq crypto.transactionAccumulator leaf
    (stores.holds valid.small) admits.leaves admits.small
  have grown : Stores crypto leaf
        { store with
          transactionAccumulator := store.transactionAccumulator ++
            (frozenRange ledger.size save.leaves.length).map
              (stored crypto.transactionAccumulator leaf) }
        { ledger with size := ledger.size + save.leaves.length } := by
    refine { stores with transactionAccumulator := ?_ }
    rw [stores.transactionAccumulator, MerkleAccumulator.frozenRange_append, map_append]
  rw [LedgerStore.saveTransactions, ensure, if_pos admits.notEmpty, ok_bind, appended]
  cases given : save.signed with
  | none =>
    refine ⟨_, rfl, ?_⟩
    rw [Ledger.extend, given]
    exact grown
  | some signed =>
    have certifies := admits.certified signed given
    rw [checkApplicable, ensure, if_pos certifies.version, ok_bind, ok_bind]
    dsimp only
    rw [putVerified, ensure, if_pos certifies.rootHash.symm]
    refine ⟨_, rfl, ?_⟩
    rw [Ledger.extend, given]
    exact grown.putLedgerInfo (valid.grow admits.small) { certifies with }

end

/-!
## Reading
-/

variable {items : OrderedMap Nat Nat}

theorem floor_eq_some {bound key value : Nat}
    (found : (items.filter fun entry => entry.1 ≤ bound).entries.getLast? = some (key, value)) :
    items.get? key = some value ∧ key ≤ bound ∧
      ∀ other otherValue, items.get? other = some otherValue → other ≤ bound → other ≤ key := by
  have inside : ∀ other otherValue, items.get? other = some otherValue ∧ other ≤ bound ↔
    (other, otherValue) ∈ (items.filter fun entry => entry.1 ≤ bound).entries := by
    intro other otherValue
    rw [← get?_eq_some_iff, get?_filter_eq_some_iff, decide_eq_true_iff]
  have sorted := (items.filter fun entry => entry.1 ≤ bound).sorted
  obtain ⟨front, shape⟩ := getLast?_eq_some_iff.mp found
  rw [shape] at inside sorted
  obtain ⟨stored, small⟩ := (inside key value).mpr (by simp)
  refine ⟨stored, small, fun other otherValue otherStored otherSmall => ?_⟩
  rcases mem_append.mp ((inside other otherValue).mp ⟨otherStored, otherSmall⟩) with early | last
  · rw [map_append, pairwise_append] at sorted
    refine (sorted.2.2 other (mem_map_of_mem early) key ?_).le
    simp
  · cases mem_singleton.mp last
    exact le_rfl

theorem floor_eq_none {bound : Nat}
    (none : (items.filter fun entry => entry.1 ≤ bound).entries.getLast? = none) {key value : Nat}
    (stored : items.get? key = some value) : bound < key := by
  by_contra small
  have inside : (key, value) ∈ (items.filter fun entry => entry.1 ≤ bound).entries := by
    rw [← get?_eq_some_iff, get?_filter_eq_some_iff]
    exact ⟨stored, decide_eq_true (not_lt.mp small)⟩
  rw [getLast?_eq_none_iff.mp none] at inside
  cases inside

end LedgerStore

namespace Ledger

/-- The epoch of a version: the number of epochs that ended before it. -/
def epochOf (ledger : Ledger) (version : Nat) : Nat :=
  ledger.ending.findIdx fun signed => version ≤ signed.ledgerInfo.version

theorem epochOf_le (ledger : Ledger) (version : Nat) :
    ledger.epochOf version ≤ ledger.ending.length :=
  findIdx_le_length

theorem version_lt_of_lt_epochOf {version epoch : Nat} (before : epoch < ledger.epochOf version)
    (found : ledger.ending[epoch]? = some signed) : signed.ledgerInfo.version < version := by
  have notYet := not_of_lt_findIdx before
  obtain ⟨inside, same⟩ := List.getElem?_eq_some_iff.mp found
  rw [same, decide_eq_false_iff_not, not_le] at notYet
  exact notYet

include valid

/-- The versions that end the epoch of a version and later ones. -/
theorem WellFormed.le_version_of_epochOf_le {version epoch : Nat}
    (after : ledger.epochOf version ≤ epoch)
    (found : (ledger.ending ++ ledger.current.toList)[epoch]? = some signed)
    (inside : ledger.epochOf version < ledger.ending.length) :
    version ≤ signed.ledgerInfo.version := by
  have reached := findIdx_getElem (w := inside)
  rw [decide_eq_true_iff] at reached
  exact reached.trans (valid.version_le after (getElem?_eq_getElem inside) found)

theorem WellFormed.nextBlockEpoch_latest
    {latest : LedgerInfoWithSignatures} (isLatest : ledger.latest = some latest) :
    latest.ledgerInfo.nextBlockEpoch = ledger.ending.length := by
  rw [Ledger.latest] at isLatest
  cases opened : ledger.current with
  | some signed =>
    obtain ⟨noState, epoch, -⟩ := valid.opened signed opened
    rw [opened, Option.toList_some, getLast?_concat, Option.some.injEq] at isLatest
    rw [← isLatest, LedgerInfo.nextBlockEpoch, BlockInfo.nextBlockEpoch,
      show signed.ledgerInfo.commitInfo.nextEpochState = none from noState]
    exact epoch
  | none =>
    rw [opened, Option.toList_none, append_nil, getLast?_eq_getElem?] at isLatest
    obtain ⟨-, state, installs, epoch⟩ := valid.ends _ latest isLatest
    have inside := (List.getElem?_eq_some_iff.mp isLatest).1
    rw [LedgerInfo.nextBlockEpoch, BlockInfo.nextBlockEpoch,
      show latest.ledgerInfo.commitInfo.nextEpochState = some state from installs]
    dsimp only
    omega

end Ledger

variable (stores : LedgerStore.Stores crypto leaf store ledger)

namespace LedgerStore

theorem epochEndingLedgerInfos_eq (endEpoch : Nat) {signed : List LedgerInfoWithSignatures}
    {first : Nat}
    (ending : ∀ other ∈ signed.take (endEpoch - first), other.ledgerInfo.endsEpoch = true) :
    epochEndingLedgerInfos endEpoch ((signed.zipIdx first).map Prod.swap) first =
      .ok (signed.take (endEpoch - first)) := by
  induction signed generalizing first with
  | nil =>
    rw [take_nil]
    rfl
  | cons other rest ih =>
    rw [zipIdx_cons, map_cons, Prod.swap_prod_mk, epochEndingLedgerInfos]
    by_cases done : first ≥ endEpoch
    · have nothing : endEpoch - first = 0 := by omega
      rw [if_pos done, nothing, take_zero]
    · have some : endEpoch - first = endEpoch - (first + 1) + 1 := by omega
      rw [some, take_succ_cons] at ending ⊢
      have isEnding := ending other mem_cons_self
      rw [if_neg done, if_neg (by rw [isEnding]; nofun), ensure, if_pos rfl, ok_bind,
        ih fun next member => ending next (mem_cons_of_mem _ member)]
      rfl

include stores valid

/-- The store finds the epoch of a version. -/
theorem Stores.getEpoch (version : Nat) :
    store.getEpoch version = .ok (ledger.epochOf version) := by
  have bound := ledger.epochOf_le version
  rw [LedgerStore.getEpoch]
  split
  · rename_i none
    rw [Except.ok.injEq]
    by_contra positive
    have inside : 0 < ledger.ending.length := by omega
    have found := getElem?_eq_getElem inside
    have early := Ledger.version_lt_of_lt_epochOf (by omega : 0 < ledger.epochOf version) found
    have late := floor_eq_none none ((stores.epochByVersion _ 0).mpr ⟨_, found, rfl⟩)
    omega
  · rename_i epochEndVersion epoch last
    obtain ⟨stored, small, largest⟩ := floor_eq_some last
    obtain ⟨signed, found, rfl⟩ := (stores.epochByVersion _ _).mp stored
    have inside := (List.getElem?_eq_some_iff.mp found).1
    have foundAll := Ledger.found_all found
    rw [ensure, if_pos small, ok_bind]
    change Except.ok _ = _
    rw [Except.ok.injEq]
    split
    · rename_i ended
      -- the next epoch has not ended before the version
      have after : epoch < ledger.epochOf version := by
        by_contra notAfter
        have reached := valid.le_version_of_epochOf_le (not_lt.mp notAfter) foundAll (by omega)
        omega
      by_contra different
      have nextInside : epoch + 1 < ledger.ending.length := by omega
      have next := getElem?_eq_getElem nextInside
      have early := Ledger.version_lt_of_lt_epochOf
        (by omega : epoch + 1 < ledger.epochOf version) next
      have notLarger := largest _ _ ((stores.epochByVersion _ _).mpr ⟨_, next, rfl⟩) early.le
      have larger := (valid.chained epoch signed _ found (Ledger.found_all next)).2
      omega
    · rename_i notEnded
      by_contra different
      rcases Nat.lt_or_gt_of_ne different with after | before
      · have early := Ledger.version_lt_of_lt_epochOf after found
        omega
      · have there : ledger.epochOf version < ledger.ending.length := by omega
        have first := getElem?_eq_getElem there
        have reached := valid.le_version_of_epochOf_le le_rfl (Ledger.found_all first) there
        have larger := valid.version_lt before first foundAll
        omega

/-- The store finds the epoch changes. -/
theorem Stores.getEpochEndingLedgerInfoIter {startEpoch endEpoch : Nat}
    (bound : endEpoch ≤ ledger.ending.length) :
    store.getEpochEndingLedgerInfoIter startEpoch endEpoch =
      .ok ((ledger.ending.drop startEpoch).take (endEpoch - startEpoch)) := by
  have onlyEnding :
      ((ledger.ending ++ ledger.current.toList).drop startEpoch).take (endEpoch - startEpoch) =
        (ledger.ending.drop startEpoch).take (endEpoch - startEpoch) := by
    by_cases none : endEpoch ≤ startEpoch
    · have nothing : endEpoch - startEpoch = 0 := by omega
      rw [nothing, take_zero, take_zero]
    · rw [drop_append_of_le_length (by omega), take_append_of_le_length]
      rw [length_drop]
      omega
  rw [LedgerStore.getEpochEndingLedgerInfoIter, stores.ledgerInfos]
  change epochEndingLedgerInfos endEpoch (filter _ ((zipIdx _ 0).map Prod.swap)) _ = _
  rw [filter_zipIdx_swap, Nat.sub_zero, max_eq_right (Nat.zero_le _),
    epochEndingLedgerInfos_eq, onlyEnding]
  rw [onlyEnding]
  intro other member
  have inEnding := mem_of_mem_drop (mem_of_mem_take member)
  obtain ⟨epoch, found⟩ := mem_iff_getElem?.mp inEnding
  obtain ⟨-, state, installs, -⟩ := valid.ends epoch other found
  rw [LedgerInfo.endsEpoch, installs]
  rfl

end LedgerStore

namespace Ledger

/-- The epoch changes in the answer to a client at a version. -/
def page (ledger : Ledger) (version : Nat) : List LedgerInfoWithSignatures :=
  (ledger.ending.drop (ledger.epochOf version)).take LedgerStore.maxNumEpochEndingLedgerInfo

/-- Whether the client needs more epoch changes. -/
def more (ledger : Ledger) (version : Nat) : Bool :=
  decide (LedgerStore.maxNumEpochEndingLedgerInfo < ledger.ending.length - ledger.epochOf version)

/-- The ledger info that the consistency proof for a client reaches. -/
def target (ledger : Ledger) (version : Nat) : Option LedgerInfoWithSignatures :=
  if ledger.more version = true then
    (ledger.page version).getLast?
  else
    ledger.latest

end Ledger

namespace LedgerStore

section

include stores valid

theorem Stores.getEpochChangeProof {latest : LedgerInfoWithSignatures}
    (isLatest : ledger.latest = some latest) (version : Nat) :
    store.getEpochChangeProof (ledger.epochOf version) ledger.ending.length =
      .ok ⟨ledger.page version, ledger.more version⟩ := by
  have bound := ledger.epochOf_le version
  rw [LedgerStore.getEpochChangeProof, Ledger.page, Ledger.more]
  split
  · rw [getEpochEndingLedgerInfosImpl, ensure, if_pos bound, ok_bind, getLatestLedgerInfo,
      stores.latestLedgerInfo, isLatest, okOr, ok_bind]
    dsimp only
    rw [valid.nextBlockEpoch_latest isLatest, ensure, if_pos le_rfl, ok_bind]
    by_cases isMore : ledger.ending.length - ledger.epochOf version > maxNumEpochEndingLedgerInfo
    · rw [decide_eq_true isMore, if_pos rfl,
        stores.getEpochEndingLedgerInfoIter valid (by omega),
        ok_bind, Nat.add_sub_cancel_left, ensure, if_pos]
      · rfl
      · rw [length_take, length_drop]
        omega
    · rw [decide_eq_false isMore, if_neg (by simp),
        stores.getEpochEndingLedgerInfoIter valid le_rfl, ok_bind, ensure, if_pos]
      · rw [take_of_length_le, take_of_length_le]
        · rfl
        · rw [length_drop]
          omega
        · rw [length_drop]
      · rw [length_take, length_drop]
        omega
  · rename_i current
    have same : ledger.epochOf version = ledger.ending.length := by omega
    rw [same, drop_length, take_nil, Nat.sub_self]
    rfl

/-- The consistency proof that the store gives extends the ledger of the client. -/
theorem Stores.getConsistencyProof {known version : Nat} (order : known ≤ version)
    (inside : version < ledger.size) :
    ∃ subtrees, store.getConsistencyProof (some known) version = .ok ⟨subtrees⟩ ∧
      appendSubtrees crypto.transactionAccumulator
          (summary crypto.transactionAccumulator leaf (known + 1)) subtrees (version - known) =
        .ok (summary crypto.transactionAccumulator leaf (version + 1)) := by
  have small := valid.small
  have holds : Holds crypto.transactionAccumulator leaf store.reader (version + 1) :=
    fun node complete => stores.holds small node (complete.trans (by omega))
  obtain ⟨subtrees, proved, appended⟩ :=
    MerkleAccumulator.getConsistencyProof_complete crypto.transactionAccumulator holds
      (by omega : known + 1 ≤ version + 1) (by omega)
  have difference : version + 1 - (known + 1) = version - known := by omega
  rw [difference] at appended
  refine ⟨subtrees, ?_, appended⟩
  rw [LedgerStore.getConsistencyProof, min_eq_left (by omega), min_eq_left (by omega), proved]
  rfl

/-- The store answers every client on its ledger. -/
theorem Stores.getStateProof {latest target : LedgerInfoWithSignatures} {known : Nat}
    (isLatest : ledger.latest = some latest) (notAhead : known ≤ latest.ledgerInfo.version)
    (isTarget : ledger.target known = some target) (reachable : known ≤ target.ledgerInfo.version) :
    ∃ subtrees,
      store.getStateProof known = .ok ⟨latest, ⟨ledger.page known, ledger.more known⟩, ⟨subtrees⟩⟩ ∧
        appendSubtrees crypto.transactionAccumulator
            (summary crypto.transactionAccumulator leaf
              (known + 1)) subtrees (target.ledgerInfo.version - known) =
          .ok (summary crypto.transactionAccumulator leaf (target.ledgerInfo.version + 1)) := by
  have member : target ∈ ledger.ending ++ ledger.current.toList := by
    rw [Ledger.target] at isTarget
    split at isTarget
    · have inPage := mem_of_getLast? isTarget
      exact mem_append_left _ (mem_of_mem_drop (mem_of_mem_take inPage))
    · exact mem_of_getLast? isTarget
  obtain ⟨subtrees, proved, appended⟩ :=
    stores.getConsistencyProof valid reachable (valid.describes target member).version
  refine ⟨subtrees, ?_, appended⟩
  have verifiable : verifiableLedgerInfo latest.ledgerInfo
          ⟨ledger.page known, ledger.more known⟩ (ledger.epochOf known)
          ledger.ending.length =
        .ok target.ledgerInfo := by
    rw [Ledger.target] at isTarget
    rw [verifiableLedgerInfo]
    split
    · rename_i isMore
      rw [if_pos isMore] at isTarget
      rw [isTarget]
      rfl
    · rename_i noMore
      rw [if_neg noMore, isLatest, Option.some.injEq] at isTarget
      rw [isTarget]
  rw [LedgerStore.getStateProof, getLatestLedgerInfo, stores.latestLedgerInfo, isLatest, okOr,
    ok_bind, getStateProofWithLedgerInfo, ensure, if_pos notAhead, ok_bind,
    stores.getEpoch valid, ok_bind]
  dsimp only
  rw [valid.nextBlockEpoch_latest isLatest, stores.getEpochChangeProof valid isLatest,
    ok_bind, verifiable, ok_bind, proved]
  rfl

end

/-!
## Honest nodes
-/

/-- Save batches one after the other. -/
def saveAll (hasher : Hasher HashValue) :
    LedgerStore → (firstVersion : Nat) → List Ledger.Save →
    Fallible LedgerStore
  | store, _, [] => .ok store
  | store, firstVersion, save :: saves => do
      let store ← store.saveTransactions hasher save.leaves firstVersion save.signed
      saveAll hasher store (firstVersion + save.leaves.length) saves

end LedgerStore

namespace Ledger

/-- Every batch continues the ledger of the batches before it. -/
def AdmitsAll (crypto : Crypto) (leaf : Nat → HashValue) : Ledger → List Save → Prop
  | _, [] => True
  | ledger, save :: saves =>
    ledger.Admits crypto leaf save ∧ AdmitsAll crypto leaf (ledger.extend save) saves

theorem size_extend (ledger : Ledger) (save : Save) :
    (ledger.extend save).size = ledger.size + save.leaves.length := by
  rw [extend]
  split
  · exact size_add _ _
  · rfl

end Ledger

namespace LedgerStore

include stores valid in
/-- A node that saves what is certified holds a ledger. -/
theorem Stores.saveAll {saves : List Ledger.Save} (admits : ledger.AdmitsAll crypto leaf saves) :
    ∃ saved, store.saveAll crypto.transactionAccumulator ledger.size saves = .ok saved ∧
      Stores crypto leaf saved (saves.foldl Ledger.extend ledger) ∧
      (saves.foldl Ledger.extend ledger).WellFormed crypto leaf := by
  induction saves generalizing store ledger with
  | nil => exact ⟨store, rfl, stores, valid⟩
  | cons save saves ih =>
    obtain ⟨first, rest⟩ := admits
    obtain ⟨next, saved, nextStores⟩ := stores.saveTransactions valid first
    obtain ⟨final, savedAll, finalStores, finalWellFormed⟩ :=
      ih (valid.extend first) nextStores rest
    rw [Ledger.size_extend] at savedAll
    refine ⟨final, ?_, finalStores, finalWellFormed⟩
    rw [LedgerStore.saveAll, saved, ok_bind]
    exact savedAll

end LedgerStore

end Diem
