import Diem.AccumulatorConsistency
import Diem.RangeProofSoundness
import Diem.SymbolicCrypto

namespace Diem

open MerkleForest InMemoryAccumulator TransactionInfoListWithProof Fallible
  MerkleAccumulator HashValue List Nat

/-!
# Transaction lists that are synced

A list of transactions that verifies against a ledger info is part of the ledger that the
ledger info commits to.  The proof only looks at as many bits of the first version as the
ledger's tree has levels, so a list is pinned to its place exactly when the first version
is below the width of the tree.  A check that the list extends the local ledger counts the
left siblings of the proof, which shows that no bit of the first version was left out.
-/

variable {Transaction ContractEvent : Type}
  {hashing : LedgerHashing Transaction ContractEvent}

variable {ledgerInfo : LedgerInfo} {ledger : List TransactionInfo} {first : Nat}

namespace LedgerHashing

variable (hashing ledgerInfo ledger)

def IsInfoHash (hash : HashValue) : Prop :=
  ∃ info, hashing.hashTransactionInfo info = hash

/-- Transaction infos and the nodes above them are hashed without collisions. -/
structure CollisionFree : Prop where
  infos : Function.Injective hashing.hashTransactionInfo
  accumulator : MerkleForest.CollisionFree hashing.transactionAccumulator hashing.IsInfoHash

/-- The accumulator of the infos of a ledger has the given root hash. -/
def HasRoot (rootHash : HashValue) : Prop :=
  ∃ accumulator,
    fromLeaves hashing.transactionAccumulator (ledger.map hashing.hashTransactionInfo) =
      .ok accumulator ∧
    accumulator.rootHash = rootHash

/-- The ledger info is for the last version of the ledger and has its root hash. -/
structure Commits : Prop where
  versions : ledger.length = ledgerInfo.version + 1
  fits : ledger.length ≤ maxAccumulatorLeaves
  root : hashing.HasRoot ledger ledgerInfo.transactionAccumulatorHash

def leafOf : Nat → HashValue :=
  leafAt hashing.transactionAccumulator (ledger.map hashing.hashTransactionInfo)

variable {hashing ledgerInfo ledger}

theorem leafOf_eq {index : Nat} (inside : index < ledger.length) :
    hashing.leafOf ledger index = hashing.hashTransactionInfo (ledger.get ⟨index, inside⟩) := by
  simp [leafOf, leafAt, inside]

theorem isInfoHash_leafOf {ledger : List TransactionInfo} :
    ∀ index < ledger.length, hashing.IsInfoHash (hashing.leafOf ledger index) := by
  intro index inside
  rw [leafOf_eq inside]
  exact ⟨_, rfl⟩

theorem isInfoHash_of_mem {infos : List TransactionInfo} :
    ∀ hash ∈ infos.map hashing.hashTransactionInfo, hashing.IsInfoHash hash := by
  intro hash member
  obtain ⟨info, -, rfl⟩ := mem_map.mp member
  exact ⟨info, rfl⟩

theorem fromLeaves_ledger (fits : ledger.length < 2 ^ 64) :
    fromLeaves hashing.transactionAccumulator (ledger.map hashing.hashTransactionInfo) =
      .ok (summary hashing.transactionAccumulator (hashing.leafOf ledger) ledger.length) := by
  have isSummary := fromLeaves_eq_summary hashing.transactionAccumulator (hashing.leafOf ledger)
    (leavesFrom_leafAt _ _) (by simpa using fits)
  rwa [length_map] at isSummary

theorem HasRoot.eq_rootHash {root : HashValue} (fits : ledger.length < 2 ^ 64)
    (hasRoot : hashing.HasRoot ledger root) :
    root = rootHash hashing.transactionAccumulator (hashing.leafOf ledger)
      ledger.length := by
  obtain ⟨accumulator, built, rfl⟩ := hasRoot
  rw [fromLeaves_ledger fits] at built
  cases built
  rfl

/-- Infos whose hashes continue the leaves of a ledger are a part of it. -/
theorem infos_eq_of_leavesFrom (free : hashing.CollisionFree) {infos : List TransactionInfo}
    {start : Nat} (inside : start + infos.length ≤ ledger.length)
    (continues : LeavesFrom (hashing.leafOf ledger) start (infos.map hashing.hashTransactionInfo)) :
    infos = (ledger.drop start).take infos.length := by
  apply ext_getElem
  · rw [length_take, length_drop]
    omega
  · intro index isInfo _
    have same := continues index (by simpa using isInfo)
    rw [leafOf_eq (by omega)] at same
    simp only [get_eq_getElem, getElem_map] at same
    rw [getElem_take, getElem_drop]
    exact free.infos same

end LedgerHashing

open LedgerHashing

/-!
## Lists are pinned to their versions
-/

/-- The width of the smallest perfect tree over the leaves of the ledger. -/
def treeWidth (ledger : List TransactionInfo) : Nat :=
  2 ^ clog 2 ledger.length

theorem length_le_treeWidth (ledger : List TransactionInfo) : ledger.length ≤ treeWidth ledger :=
  le_pow_clog (by decide) _

variable (free : hashing.CollisionFree) (commits : hashing.Commits ledgerInfo ledger)

namespace TransactionInfoListWithProof

variable {list : TransactionInfoListWithProof}
include free commits

/--
Infos that verify are in the ledger, at the first version reduced to the width of the
tree; and the left siblings are the subtrees left of it.
-/
theorem verify_sound (accepted : list.verify hashing ledgerInfo (some first) = .ok ()) :
    1 ≤ list.transactionInfos.length ∧
      first % treeWidth ledger + list.transactionInfos.length ≤ ledger.length ∧
      list.transactionInfos =
        (ledger.drop (first % treeWidth ledger)).take list.transactionInfos.length ∧
      list.ledgerInfoToTransactionInfosProof.leftSiblings.reverse =
        forestRoots hashing.transactionAccumulator (hashing.leafOf ledger) 0
          (first % treeWidth ledger) := by
  have maxLeaves : maxAccumulatorLeaves = 2 ^ 63 := by decide
  have fits := commits.fits
  rw [maxLeaves] at fits
  have isRoot := commits.root.eq_rootHash (by omega)
  unfold verify at accepted
  rw [isRoot] at accepted
  obtain ⟨nonempty, inside, continues, siblings⟩ :=
    AccumulatorRangeProof.verify_sound free.accumulator isInfoHash_leafOf fits
      isInfoHash_of_mem accepted
  rw [length_map] at inside
  refine ⟨?_, inside, infos_eq_of_leavesFrom free inside continues, siblings⟩
  cases isInfos : list.transactionInfos with
  | nil =>
    rw [isInfos] at nonempty
    exact absurd rfl nonempty
  | cons info rest => simp

/--
The infos of a list with proof are those of the ledger from the first version on, one for
each entry.
-/
structure PinnedTo (list : TransactionInfoListWithProof) (ledger : List TransactionInfo)
    (first entries : Nat) : Prop where
  nonempty : 1 ≤ entries
  inside : first + entries ≤ ledger.length
  infos : list.transactionInfos = (ledger.drop first).take entries

/-- Infos that verify are pinned exactly if the first version is below the width. -/
theorem pinnedTo_iff {entries : Nat} {given : Option Nat}
    (accepted : list.verify hashing ledgerInfo given = .ok ()) (sameFirst : given = some first)
    (lengths : list.transactionInfos.length = entries) :
    list.PinnedTo ledger first entries ↔ first < treeWidth ledger := by
  subst sameFirst
  obtain ⟨nonempty, inside, isPart, -⟩ := verify_sound free commits accepted
  rw [lengths] at nonempty inside isPart
  constructor
  · intro pinned
    have bound := pinned.inside
    have width := length_le_treeWidth ledger
    omega
  · intro below
    rw [mod_eq_of_lt below] at inside isPart
    exact ⟨nonempty, inside, isPart⟩

end TransactionInfoListWithProof

/-- An entry of a list is about the info of the ledger at its version. -/
def MatchesLedger {Entry : Type} (fits : Entry → TransactionInfo → Prop) (entries : List Entry)
    (ledger : List TransactionInfo)
    (first : Nat) : Prop :=
  ∀ index entry info,
    entries[index]? = some entry → ledger[first + index]? = some info → fits entry info

theorem matchesLedger_of_zip {Entry : Type} {check : Entry × TransactionInfo → Fallible Unit}
    {fits : Entry → TransactionInfo → Prop} {entries : List Entry} {infos : List TransactionInfo}
    (checked : forM (entries.zip infos) check = .ok ())
    (means : ∀ entry info, check (entry, info) = .ok () → fits entry info)
    (isPart : infos = (ledger.drop first).take entries.length) :
    MatchesLedger fits entries ledger first := by
  intro index entry info isEntry isInfo
  apply means
  apply forM_eq_ok_iff.mp checked
  have inside : index < entries.length := (List.getElem?_eq_some_iff.mp isEntry).1
  have sameInfo : infos[index]? = some info := by
    rw [isPart, getElem?_take, if_pos inside, getElem?_drop]
    exact isInfo
  exact mem_of_getElem? (getElem?_zip_eq_some.mpr ⟨isEntry, sameInfo⟩)

variable (hashing) in
/-- The events hash to the root that the info carries. -/
def EventsMatch (events : List ContractEvent) (info : TransactionInfo) : Prop :=
  ∃ accumulator,
    fromLeaves hashing.eventAccumulator (events.map hashing.hashEvent) = .ok accumulator ∧
    accumulator.rootHash = info.eventRootHash

variable {info : TransactionInfo}

theorem eventsMatch_of_verify {events : List ContractEvent}
    (checked : verifyEventsAgainstRootHash hashing events info = .ok ()) :
    EventsMatch hashing events info := by
  obtain ⟨accumulator, built, checked⟩ := bind_eq_ok_iff.mp checked
  exact ⟨accumulator, built, ensure_eq_ok_iff.mp checked⟩

namespace TransactionListWithProof

variable (hashing ledger first) in
/-- The list is the part of the ledger that starts at the first version. -/
structure Pinned (list : TransactionListWithProof Transaction ContractEvent) : Prop where
  infos : list.proof.PinnedTo ledger first list.transactions.length
  transactions : MatchesLedger
    (fun transaction info => hashing.hashTransaction transaction = info.transactionHash)
    list.transactions ledger first
  events : ∀ eventLists, list.events = some eventLists →
    eventLists.length = list.transactions.length ∧
      MatchesLedger (EventsMatch hashing) eventLists ledger first

variable {list : TransactionListWithProof Transaction ContractEvent}

include free commits in
theorem pinned_iff (accepted : list.verify hashing ledgerInfo (some first) = .ok ()) :
    list.Pinned hashing ledger first ↔ first < treeWidth ledger := by
  simp only [verify, check_eq_ok_iff, ensure_eq_ok_iff] at accepted
  obtain ⟨sameFirst, lengths, hashes, proved, events⟩ := accepted
  rw [← pinnedTo_iff free commits proved sameFirst lengths]
  refine ⟨fun pinned => pinned.infos, fun pinned => ⟨pinned, ?_, ?_⟩⟩
  · exact matchesLedger_of_zip hashes (fun _ _ checked => ensure_eq_ok_iff.mp checked) pinned.infos
  · intro eventLists isEvents
    simp only [verifyEvents, isEvents, check_eq_ok_iff, ensure_eq_ok_iff] at events
    obtain ⟨sameLength, checked⟩ := events
    refine ⟨sameLength, ?_⟩
    exact matchesLedger_of_zip checked (fun _ _ checked => eventsMatch_of_verify checked)
      (sameLength ▸ pinned.infos)

end TransactionListWithProof

namespace TransactionOutputListWithProof

variable (hashing) in
/-- A transaction and its output fit the info. -/
structure OutputMatches (entry : Transaction × TransactionOutput ContractEvent)
    (info : TransactionInfo) : Prop where
  transaction : hashing.hashTransaction entry.1 = info.transactionHash
  events : EventsMatch hashing entry.2.events info
  gasUsed : entry.2.gasUsed = info.gasUsed
  status : entry.2.status = .keep info.status

variable (hashing ledger first) in
/-- The list is the part of the ledger that starts at the first version. -/
structure Pinned (list : TransactionOutputListWithProof Transaction ContractEvent) : Prop where
  infos : list.proof.PinnedTo ledger first list.transactionsAndOutputs.length
  outputs : MatchesLedger (OutputMatches hashing) list.transactionsAndOutputs ledger first

theorem outputMatches_of_verify {entry : Transaction × TransactionOutput ContractEvent}
    (checked : verifyOutput hashing (entry, info) = .ok ()) : OutputMatches hashing entry info := by
  simp only [verifyOutput, check_eq_ok_iff, ensure_eq_ok_iff] at checked
  obtain ⟨events, gasUsed, status, hash⟩ := checked
  exact ⟨hash, eventsMatch_of_verify events, gasUsed, status⟩

variable {list : TransactionOutputListWithProof Transaction ContractEvent}

include free commits in
theorem pinned_iff (accepted : list.verify hashing ledgerInfo (some first) = .ok ()) :
    list.Pinned hashing ledger first ↔ first < treeWidth ledger := by
  simp only [verify, check_eq_ok_iff, ensure_eq_ok_iff] at accepted
  obtain ⟨sameFirst, lengths, outputs, proved⟩ := accepted
  rw [← pinnedTo_iff free commits proved sameFirst lengths]
  exact ⟨fun pinned => pinned.infos, fun pinned =>
    ⟨pinned, matchesLedger_of_zip outputs
      (fun _ _ checked => outputMatches_of_verify checked) pinned.infos⟩⟩

end TransactionOutputListWithProof

/--
A list of transactions, or of outputs, that verifies from a first version is pinned to
that version exactly if the version is below the width of the ledger's tree.
-/
theorem verified_pinned_iff
    (free : hashing.CollisionFree)
    {ledgerInfo : LedgerInfo}
    {ledger : List TransactionInfo}
    (commits : hashing.Commits ledgerInfo ledger)
    (first : Nat) :
    (∀ list : TransactionListWithProof Transaction ContractEvent,
      list.verify hashing ledgerInfo (some first) = .ok () →
        (list.Pinned hashing ledger first ↔ first < treeWidth ledger)) ∧
    (∀ list : TransactionOutputListWithProof Transaction ContractEvent,
      list.verify hashing ledgerInfo (some first) = .ok () →
        (list.Pinned hashing ledger first ↔ first < treeWidth ledger)) :=
  ⟨fun _ accepted =>
      TransactionListWithProof.pinned_iff free commits accepted,
    fun _ accepted => TransactionOutputListWithProof.pinned_iff free commits accepted⟩

instance : HashTerm TransactionInfo :=
  HashTerm.along
    (fun info =>
      (info.gasUsed, info.status.code, info.transactionHash,
        info.eventRootHash, info.stateChangeHash, info.stateCheckpointHash))
    fun first second same => by
      obtain ⟨_, ⟨_⟩, _, _, _, _⟩ := first
      obtain ⟨_, ⟨_⟩, _, _, _, _⟩ := second
      simp_all

namespace LedgerHashing

/-- Hashes that hold what they were made from, with a tag for leaves. -/
def symbolic : LedgerHashing Nat Nat where
  transactionAccumulator :=
    { internal := fun left right => .pair (.atom 0) (.pair left right)
      placeholder := accumulatorPlaceholderHash }
  eventAccumulator :=
    { internal := fun left right => .pair (.atom 0) (.pair left right)
      placeholder := accumulatorPlaceholderHash }
  hashTransactionInfo info := .pair (.atom 1) (HashTerm.term info)
  hashTransaction := .atom
  hashEvent event := .pair (.atom 1) (.atom event)

theorem symbolic_collisionFree : symbolic.CollisionFree where
  infos first second same := HashTerm.injective (pair.inj same).2
  accumulator :=
    { injective := fun same =>
        pair.inj (pair.inj same).2
      leaf_ne_internal := by
        rintro _ left right ⟨info, rfl⟩ same
        cases (pair.inj same).1
      leaf_ne_placeholder := by
        rintro _ ⟨info, rfl⟩ same
        cases same
      placeholder_ne_internal := fun same => by cases same }

/-- The info of a transaction without events. -/
def plainInfo (transaction : Nat) : TransactionInfo where
  gasUsed := transaction
  status := ⟨0⟩
  transactionHash := .atom transaction
  eventRootHash := accumulatorPlaceholderHash
  stateChangeHash := zero
  stateCheckpointHash := none

/-- The leaf of a transaction without events. -/
def plainLeaf (transaction : Nat) : HashValue :=
  symbolic.hashTransactionInfo (plainInfo transaction)

/-- The ledger info of the given version and root hash. -/
def plainLedgerInfo (version : Nat) (rootHash : HashValue) : LedgerInfo where
  commitInfo :=
    { BlockInfo.empty with
      version
      executedStateId := rootHash }
  consensusDataHash := zero

/-- The root hash of the ledger of the transactions 0 and 1. -/
def pairRoot : HashValue :=
  symbolic.transactionAccumulator.internal (plainLeaf 0) (plainLeaf 1)

theorem commits_one : symbolic.Commits (plainLedgerInfo 0 (plainLeaf 0)) [plainInfo 0] :=
  ⟨rfl, by decide, _, rfl, rfl⟩

theorem commits_two : symbolic.Commits (plainLedgerInfo 1 pairRoot) [plainInfo 0, plainInfo 1] :=
  ⟨rfl, by decide, _, rfl, rfl⟩

/-- The info of a transaction, proved with the given left siblings. -/
def plainProof (transaction : Nat) (leftSiblings : List HashValue) :
    TransactionInfoListWithProof where
  ledgerInfoToTransactionInfosProof := { leftSiblings, rightSiblings := [] }
  transactionInfos := [plainInfo transaction]

/-- A list of one transaction, said to start at the given version. -/
def plainList (transaction first : Nat) (leftSiblings : List HashValue) :
    TransactionListWithProof Nat Nat where
  transactions := [transaction]
  events := some [[]]
  firstTransactionVersion := some first
  proof := plainProof transaction leftSiblings

/-- A list of one transaction and its output, said to start at the given version. -/
def plainOutputList (transaction first : Nat) (leftSiblings : List HashValue) :
    TransactionOutputListWithProof Nat Nat where
  transactionsAndOutputs :=
    [(transaction, { events := [], gasUsed := transaction, status := .keep ⟨0⟩ })]
  firstTransactionOutputVersion := some first
  proof := plainProof transaction leftSiblings

end LedgerHashing

/-- The second transaction of a ledger of two is pinned to version 1. -/
theorem verified_pinned_iff_second :
    (plainList 1 1 [plainLeaf 0]).Pinned symbolic [plainInfo 0, plainInfo 1] 1 ∧
      (plainOutputList 1 1 [plainLeaf 0]).Pinned symbolic [plainInfo 0, plainInfo 1] 1 := by
  have width := length_le_treeWidth [plainInfo 0, plainInfo 1]
  have below : 1 < treeWidth [plainInfo 0, plainInfo 1] := width
  obtain ⟨lists, outputs⟩ := verified_pinned_iff symbolic_collisionFree commits_two 1
  exact ⟨(lists (plainList 1 1 [plainLeaf 0]) rfl).mpr below,
    (outputs (plainOutputList 1 1 [plainLeaf 0]) rfl).mpr below⟩

/-- The only transaction of a ledger is also accepted as that of version 5. -/
theorem only_transaction_aliased :
    (plainList 0 5 []).verify symbolic (plainLedgerInfo 0 (plainLeaf 0)) (some 5) = .ok () ∧
      ¬ (plainList 0 5 []).Pinned symbolic [plainInfo 0] 5 ∧
      (plainOutputList 0 5 []).verify symbolic (plainLedgerInfo 0 (plainLeaf 0)) (some 5) = .ok () ∧
      ¬ (plainOutputList 0 5 []).Pinned symbolic [plainInfo 0] 5 := by
  refine ⟨rfl, fun pinned => ?_, rfl, fun pinned => ?_⟩
  · exact absurd pinned.infos.inside (by decide)
  · exact absurd pinned.infos.inside (by decide)

/-!
## Lists that extend the local ledger
-/

namespace LedgerHashing

/-- A part of a ledger continues its leaves. -/
theorem leavesFrom_part {start : Nat} (inside : start ≤ ledger.length) (amount : Nat) :
    LeavesFrom (hashing.leafOf ledger) start
      (((ledger.drop start).take amount).map hashing.hashTransactionInfo) := by
  have reads : LeavesFrom (hashing.leafOf ledger) 0 (ledger.map hashing.hashTransactionInfo) :=
    leavesFrom_leafAt _ _
  rw [← take_append_drop start ledger, map_append, leavesFrom_append] at reads
  have rest := reads.2
  rw [length_map, length_take, min_eq_left inside, zero_add, take_append_drop] at rest
  rw [← take_append_drop amount (ledger.drop start), map_append, leavesFrom_append] at rest
  exact rest.1

/-- The root hash of an initial part of a ledger. -/
theorem rootHash_take {amount : Nat} (inside : amount ≤ ledger.length) (fits : amount < 2 ^ 64) :
    rootHash hashing.transactionAccumulator (hashing.leafOf (ledger.take amount)) amount =
      rootHash hashing.transactionAccumulator (hashing.leafOf ledger) amount := by
  have takeLength : (ledger.take amount).length = amount := by rw [length_take, min_eq_left inside]
  have isSummary := @fromLeaves_ledger _ _ hashing (ledger.take amount) (by omega)
  have reads := @leavesFrom_part _ _ hashing ledger 0 (zero_le _) amount
  rw [drop_zero] at reads
  have isPart := fromLeaves_eq_summary hashing.transactionAccumulator
    (hashing.leafOf ledger) reads (by rw [length_map]; omega)
  rw [isSummary, length_map, takeLength] at isPart
  exact congrArg InMemoryAccumulator.rootHash (Except.ok.inj isPart)

theorem ledger_eq_of_sameRoot (free : hashing.CollisionFree) {first second : List TransactionInfo}
    (fits : first.length < 2 ^ 64) (sameLength : first.length = second.length)
    (sameRoot : rootHash hashing.transactionAccumulator (hashing.leafOf first) first.length =
      rootHash hashing.transactionAccumulator (hashing.leafOf second) second.length) :
    first = second := by
  have secondFits : second.length < 2 ^ 64 := sameLength ▸ fits
  obtain ⟨firstCovers, -, -⟩ := fromLeaves_covers (@fromLeaves_ledger _ _ hashing first fits)
  obtain ⟨secondCovers, -, -⟩ :=
    fromLeaves_covers (@fromLeaves_ledger _ _ hashing second secondFits)
  have firstComputed :=
    computeRootHash_forestRoots hashing.transactionAccumulator (hashing.leafOf first) fits
  have secondComputed :=
    computeRootHash_forestRoots hashing.transactionAccumulator (hashing.leafOf second) secondFits
  rw [← sameRoot, ← sameLength] at secondComputed
  have sameForest := computeRootHash_injective free.accumulator fits
    (length_forestRoots _ _ fits) (length_forestRoots _ _ fits)
    firstComputed secondComputed
  simp only [summary] at firstCovers secondCovers
  rw [← sameLength, ← sameForest, ← append_nil (forestRoots _ _ _ _)] at secondCovers
  have isPrefix :=
    firstCovers.starts_total free.accumulator isInfoHash_of_mem isInfoHash_of_mem secondCovers
  have sameHashes := isPrefix.eq_of_length (by simp [sameLength])
  exact map_injective_iff.mpr free.infos sameHashes

end LedgerHashing

namespace TransactionInfoListWithProof

variable {list : TransactionInfoListWithProof} {numTxnsInLedger overlap : Nat}
  {root : HashValue}

/-- What is checked when the overlap with the local ledger is within the list. -/
theorem verifyExtendsLedger_eq_ok
    (accepted : list.verifyExtendsLedger hashing numTxnsInLedger root (some first) = .ok overlap)
    (overlapping : numTxnsInLedger - first ≤ list.transactionInfos.length) :
    first ≤ numTxnsInLedger ∧ overlap = numTxnsInLedger - first ∧
      ∃ before extended, InMemoryAccumulator.new hashing.transactionAccumulator
          list.ledgerInfoToTransactionInfosProof.leftSiblings.reverse
          first =
        .ok before ∧
        before.append hashing.transactionAccumulator
            ((list.transactionInfos.take (numTxnsInLedger - first)).map
              hashing.hashTransactionInfo) =
          .ok extended ∧
        extended.rootHash = root := by
  obtain ⟨notNew, accepted⟩ := check_eq_ok_iff.mp accepted
  rw [if_neg (not_lt.mpr overlapping)] at accepted
  obtain ⟨before, built, accepted⟩ := bind_eq_ok_iff.mp accepted
  obtain ⟨extended, appended, accepted⟩ := bind_eq_ok_iff.mp accepted
  obtain ⟨sameRoot, accepted⟩ := check_eq_ok_iff.mp accepted
  cases accepted
  exact ⟨ensure_eq_ok_iff.mp notNew, rfl, before, extended, built,
    appended, ensure_eq_ok_iff.mp sameRoot⟩

include free commits in
/-- The number of left siblings shows that no bit of the first version is left out. -/
theorem first_lt_treeWidth {before : InMemoryAccumulator HashValue} (isVersion : first < 2 ^ 64)
    (accepted : list.verify hashing ledgerInfo (some first) = .ok ())
    (built : InMemoryAccumulator.new hashing.transactionAccumulator
        list.ledgerInfoToTransactionInfosProof.leftSiblings.reverse first =
      .ok before) :
    first < treeWidth ledger := by
  obtain ⟨-, -, -, siblings⟩ := verify_sound free commits accepted
  obtain ⟨lengths, -, -, -⟩ := new_eq_ok built
  have reduced : first % treeWidth ledger < 2 ^ 64 := (mod_le _ _).trans_lt isVersion
  rw [siblings, length_forestRoots _ _ reduced] at lengths
  exact Word64.lt_of_countOnes_mod isVersion lengths.symm

end TransactionInfoListWithProof

/--
A list that verifies against a ledger info and extends the local ledger shows that the
local ledger is an initial part of the committed one, and what is new in the list is what
comes next in the committed ledger.
-/
theorem extension_continues_ledger
    (free : hashing.CollisionFree)
    {localLedger ledger : List TransactionInfo}
    {localRoot : HashValue}
    {ledgerInfo : LedgerInfo}
    {list : TransactionInfoListWithProof}
    {first overlap : Nat}
    (localFits : localLedger.length < 2 ^ 64)
    (hasRoot : hashing.HasRoot localLedger localRoot)
    (commits : hashing.Commits ledgerInfo ledger)
    (accepted : list.verify hashing ledgerInfo (some first) = .ok ())
    (continues :
      list.verifyExtendsLedger hashing localLedger.length localRoot (some first) = .ok overlap)
    (overlapping : localLedger.length - first ≤ list.transactionInfos.length) :
    overlap = localLedger.length - first ∧ localLedger <+: ledger ∧
      first + list.transactionInfos.length ≤ ledger.length ∧
      list.transactionInfos.drop overlap = (ledger.drop localLedger.length).take
        (first + list.transactionInfos.length - localLedger.length) := by
  obtain ⟨notNew, isOverlap, before, extended, built, appended, sameRoot⟩ :=
    verifyExtendsLedger_eq_ok continues overlapping
  have isVersion : first < 2 ^ 64 := lt_of_le_of_lt notNew localFits
  have below := first_lt_treeWidth free commits isVersion accepted built
  obtain ⟨-, inside, isPart, siblings⟩ := verify_sound free commits accepted
  rw [mod_eq_of_lt below] at inside isPart siblings
  have total : first + (localLedger.length - first) = localLedger.length := by omega
  have within : localLedger.length ≤ ledger.length := by omega
  -- The accumulator from the proof is that of the ledger's first leaves.
  have overlapPart : list.transactionInfos.take (localLedger.length - first) =
        (ledger.drop first).take (localLedger.length - first) := by
    rw [isPart, take_take, min_eq_left overlapping]
  have overlapLength : ((list.transactionInfos.take (localLedger.length - first)).map
        hashing.hashTransactionInfo).length = localLedger.length - first := by
    rw [length_map, length_take, min_eq_left overlapping]
  rw [siblings, new_forestRoots _ _ isVersion] at built
  cases built
  have overlapLeaves :=
    @leavesFrom_part _ _ hashing ledger first (by omega) (localLedger.length - first)
  rw [← overlapPart] at overlapLeaves
  have isSummary := append_summary hashing.transactionAccumulator (hashing.leafOf ledger)
    overlapLeaves (by rw [overlapLength, total]; exact localFits)
  rw [appended, overlapLength, total] at isSummary
  cases isSummary
  -- So the local ledger and the initial part of the ledger have one root.
  have isTake : localLedger = ledger.take localLedger.length := by
    have takeLength : (ledger.take localLedger.length).length = localLedger.length := by
      rw [length_take, min_eq_left within]
    apply ledger_eq_of_sameRoot free localFits takeLength.symm
    rw [takeLength, rootHash_take within localFits, ← hasRoot.eq_rootHash localFits]
    exact sameRoot.symm
  refine ⟨isOverlap, ?_, inside, ?_⟩
  · rw [isTake]
    exact take_prefix _ _
  · rw [isOverlap, isPart, drop_take, drop_drop, total]
    congr 1
    rw [length_take, length_drop]
    omega

/-- The second transaction of a ledger of two extends the ledger of the first one. -/
theorem extension_continues_ledger_second :
    [plainInfo 0] <+: [plainInfo 0, plainInfo 1] ∧
      (plainProof 1 [plainLeaf 0]).transactionInfos.drop 0 =
        ([plainInfo 0, plainInfo 1].drop 1).take 1 := by
  obtain ⟨-, isPrefix, -, isNew⟩ :=
    extension_continues_ledger symbolic_collisionFree (by decide) commits_one.root commits_two
      (rfl : (plainProof 1 [plainLeaf 0]).verify symbolic
        (plainLedgerInfo 1 pairRoot) (some 1) = .ok ())
      (rfl : (plainProof 1 [plainLeaf 0]).verifyExtendsLedger symbolic 1
        (plainLeaf 0) (some 1) = .ok 0)
      (by decide)
  exact ⟨isPrefix, isNew⟩

end Diem
