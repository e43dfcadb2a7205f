import Diem.LedgerStoreSpec
import Diem.TrustedStateRuns

namespace Diem

open Waypoint (newAny)
open MerkleForest
open InMemoryAccumulator (summary)
open LedgerStore (Stores maxNumEpochEndingLedgerInfo)
open Fallible (ensure ok_bind)
open List Option InMemoryAccumulator

/-!
# State proofs of honest nodes

A client on the ledger of a node asks for a state proof, checks it and asks again.  The
node decides how far the consistency proof goes, and the client on its own which ledger
info it must reach.  The two agree except at one point: the latest ledger info ends an
epoch, and the page of epoch changes stops exactly one epoch before.
-/

theorem dropWhile_eq_drop {α : Type} {test : α → Bool} {items : List α} (count : Nat)
    (before :
      ∀ (position : Nat) item, position < count → items[position]? = some item → test item = true)
    (after : ∀ item, items[count]? = some item → test item = false) :
    items.dropWhile test = items.drop count := by
  induction items generalizing count with
  | nil => simp
  | cons item items ih =>
    cases count with
    | zero =>
      rw [dropWhile_cons_of_neg, drop_zero]
      rw [after item rfl]
      nofun
    | succ count =>
      have passes := before 0 item (Nat.succ_pos _) rfl
      rw [dropWhile_cons_of_pos passes, drop_succ_cons]
      refine ih count ?_ after
      intro position other inside found
      exact before (position + 1) other (Nat.succ_lt_succ inside) found

variable {crypto : Crypto} {leaf : Nat → HashValue} {ledger : Ledger} {version : Nat}
  {initial : Option TransactionAccumulatorSummary}
  {latest target change : LedgerInfoWithSignatures} {state : TrustedState}
  {isLeaf : HashValue → Prop} {verifier : Verifier}
  {consistencyProof : AccumulatorConsistencyProof}

namespace Ledger

/-- The validators after the epochs that ended up to a version. -/
def InForce (ledger : Ledger) (version epoch : Nat) (state : EpochState) : Prop :=
  ∃ last, ledger.ending[epoch]? = some last ∧ last.ledgerInfo.version ≤ version ∧
    (∀ next, ledger.ending[epoch + 1]? = some next → version < next.ledgerInfo.version) ∧
    last.ledgerInfo.nextEpochState = some state

/-- The trusted state of a client at a version of the ledger. -/
inductive Client (crypto : Crypto) (leaf : Nat → HashValue) (ledger : Ledger) :
    TrustedState → Option TransactionAccumulatorSummary → Nat → Prop
  | epochState
      {waypoint : Waypoint}
      {epoch : Nat}
      {state : EpochState}
      {latest : LedgerInfoWithSignatures}
      {initial : Option TransactionAccumulatorSummary}
      (isLatest : ledger.latest = some latest)
      (notAhead : waypoint.version ≤ latest.ledgerInfo.version)
      (agrees : waypoint.version = latest.ledgerInfo.version →
        waypoint = Waypoint.newAny crypto latest.ledgerInfo)
      (inForce : ledger.InForce waypoint.version epoch state) :
      Client crypto leaf ledger
        (.epochState waypoint state
          ⟨summary crypto.transactionAccumulator leaf (waypoint.version + 1)⟩)
        initial waypoint.version
  | waypoint
      {epoch : Nat}
      {signed : LedgerInfoWithSignatures}
      (ends : ledger.ending[epoch]? = some signed) :
      Client crypto leaf ledger (.epochWaypoint (.newAny crypto signed.ledgerInfo))
        (some ⟨summary crypto.transactionAccumulator leaf (signed.ledgerInfo.version + 1)⟩)
        signed.ledgerInfo.version

/-- The answer for a client at the version leads it to the wrong ledger info. -/
def Stuck (ledger : Ledger) (version : Nat) : Prop :=
  ∃ latest, ledger.latest = some latest ∧ latest.ledgerInfo.endsEpoch = true ∧
    latest.ledgerInfo.epoch = ledger.epochOf version + maxNumEpochEndingLedgerInfo

variable {epoch : Nat} {signed : LedgerInfoWithSignatures}

section

variable (valid : ledger.WellFormed crypto leaf)
include valid

variable {state : EpochState}

/-- The validators that an epoch change installs verify the next ledger info. -/
theorem WellFormed.verify_next {last : LedgerInfoWithSignatures}
    (found : ledger.ending[epoch]? = some last)
    (installs : last.ledgerInfo.nextEpochState = some state)
    (next : (ledger.ending ++ ledger.current.toList)[epoch + 1]? = some signed) :
    (Verifier.epochState state).verify crypto signed = .ok () := by
  obtain ⟨⟨other, otherInstalls, accepted⟩, -⟩ := valid.chained epoch last signed found next
  rw [installs, some.injEq] at otherInstalls
  rw [otherInstalls]
  exact accepted

theorem WellFormed.epoch_of_inForce (inForce : ledger.InForce version epoch state) :
    state.epoch = epoch + 1 ∧ epoch < ledger.ending.length ∧ epoch ≤ ledger.epochOf version ∧
      ledger.epochOf version ≤ epoch + 1 := by
  obtain ⟨last, found, small, next, installs⟩ := inForce
  obtain ⟨-, other, otherInstalls, epochs⟩ := valid.ends epoch last found
  rw [installs, some.injEq] at otherInstalls
  refine ⟨?_, (List.getElem?_eq_some_iff.mp found).1, ?_, ?_⟩
  · rw [otherInstalls]
    exact epochs
  · by_contra later
    have inside := (List.getElem?_eq_some_iff.mp found).1
    have there : ledger.epochOf version < ledger.ending.length := by omega
    have first := getElem?_eq_getElem there
    have reached := valid.le_version_of_epochOf_le le_rfl (found_all first) there
    have larger := valid.version_lt (not_le.mp later) first (found_all found)
    omega
  · by_contra later
    have bound := ledger.epochOf_le version
    have there : epoch + 1 < ledger.ending.length := by omega
    have second := getElem?_eq_getElem there
    have early := Ledger.version_lt_of_lt_epochOf (not_le.mp later) second
    have late := next _ second
    omega

/-- At a version that ends an epoch the validators of the next one are in force. -/
theorem WellFormed.inForce_ending (found : ledger.ending[epoch]? = some signed)
    (installs : signed.ledgerInfo.nextEpochState = some state) :
    ledger.InForce signed.ledgerInfo.version epoch state := by
  refine ⟨signed, found, le_rfl, ?_, installs⟩
  intro next foundNext
  exact valid.version_lt (Nat.lt_succ_self epoch) found (found_all foundNext)

theorem WellFormed.epochOf_ending (found : ledger.ending[epoch]? = some signed) :
    ledger.epochOf signed.ledgerInfo.version = epoch := by
  obtain ⟨-, state, installs, -⟩ := valid.ends epoch signed found
  obtain ⟨-, -, lower, -⟩ := valid.epoch_of_inForce (valid.inForce_ending found installs)
  by_contra different
  have before : epoch < ledger.epochOf signed.ledgerInfo.version := by omega
  exact (Ledger.version_lt_of_lt_epochOf before found).false

end

/-!
## Pages of epoch changes
-/

theorem getElem?_page (ledger : Ledger) (version position : Nat) :
    (ledger.page version)[position]? =
      if position < maxNumEpochEndingLedgerInfo then
        ledger.ending[ledger.epochOf version + position]?
      else none := by
  rw [page, getElem?_take, getElem?_drop]

theorem length_page (ledger : Ledger) (version : Nat) :
    (ledger.page version).length =
      min maxNumEpochEndingLedgerInfo (ledger.ending.length - ledger.epochOf version) := by
  rw [page, length_take, length_drop]

/-- The last ledger info of a page. -/
structure PageEnds (ledger : Ledger) (version last : Nat)
    (change : LedgerInfoWithSignatures) : Prop where
  shape : last + 1 = ledger.epochOf version + (ledger.page version).length
  found : ledger.ending[last]? = some change
  lookup : (ledger.page version).getLast? = some change

theorem exists_pageEnds (notEmpty : ledger.epochOf version < ledger.ending.length) :
    ∃ last change, ledger.PageEnds version last change := by
  have length := ledger.length_page version
  have positive : 0 < maxNumEpochEndingLedgerInfo := by decide
  obtain ⟨last, shape⟩ : ∃ last, last + 1 = ledger.epochOf version + (ledger.page version).length :=
    ⟨ledger.epochOf version + (ledger.page version).length - 1, by omega⟩
  have inside : last < ledger.ending.length := by omega
  have found := getElem?_eq_getElem inside
  refine ⟨last, _, shape, found, ?_⟩
  rw [getLast?_eq_getElem?, getElem?_page, if_pos (by omega), ← found]
  congr 1
  omega

/-- Each epoch change of a ledger is verified by what the one before installs. -/
theorem WellFormed.verifyChain (valid : ledger.WellFormed crypto leaf) (count : Nat)
    (verified :
      ∀ signed, ledger.ending[epoch]? = some signed → verifier.verify crypto signed = .ok ()) :
    EpochChangeProof.verifyChain crypto verifier ((ledger.ending.drop epoch).take count) =
      .ok () := by
  induction count generalizing epoch verifier with
  | zero => rfl
  | succ count ih =>
    by_cases inside : epoch < ledger.ending.length
    · have found := getElem?_eq_getElem inside
      obtain ⟨-, state, installs, -⟩ := valid.ends epoch _ found
      rw [drop_eq_getElem_cons inside, take_succ_cons, EpochChangeProof.verifyChain,
        verified _ found, ok_bind, installs]
      refine ih fun next foundNext => ?_
      exact valid.verify_next found installs (found_all foundNext)
    · rw [drop_of_length_le (not_lt.mp inside), take_nil]
      rfl

/-- A verifier stands at an epoch of the page for a client. -/
structure StandsAt (crypto : Crypto) (ledger : Ledger) (version epoch : Nat)
    (verifier : Verifier) : Prop where
  first : ledger.epochOf version ≤ epoch
  second : epoch ≤ ledger.epochOf version + 1
  inside : epoch < ledger.ending.length
  stale : ∀ (other : Nat) signed, ledger.epochOf version ≤ other →
    ledger.ending[other]? = some signed →
      (verifier.isLedgerInfoStale signed.ledgerInfo = true ↔ other < epoch)
  verified : ∀ signed, ledger.ending[epoch]? = some signed → verifier.verify crypto signed = .ok ()

/-- A verifier that stands inside a page accepts it. -/
theorem WellFormed.verify_page (valid : ledger.WellFormed crypto leaf) {last : Nat}
    (stands : ledger.StandsAt crypto version epoch verifier)
    (ends : ledger.PageEnds version last change) (inPage : epoch ≤ last) :
    EpochChangeProof.verify crypto ⟨ledger.page version, ledger.more version⟩ verifier =
      .ok change := by
  have first := stands.first
  have fresh : verifier.isLedgerInfoStale change.ledgerInfo = false := by
    rw [Bool.eq_false_iff]
    intro isStale
    have before := (stands.stale last change (by omega) ends.found).mp isStale
    omega
  have dropped : ((ledger.page version).dropWhile fun signed =>
          verifier.isLedgerInfoStale signed.ledgerInfo) =
        (ledger.ending.drop epoch).take
          (maxNumEpochEndingLedgerInfo - (epoch - ledger.epochOf version)) := by
    have count : ledger.epochOf version + (epoch - ledger.epochOf version) = epoch := by omega
    rw [dropWhile_eq_drop (epoch - ledger.epochOf version), page, drop_take, drop_drop, count]
    · intro position signed before found
      rw [getElem?_page] at found
      split at found
      · exact (stands.stale _ signed (Nat.le_add_right _ _) found).mpr (by omega)
      · cases found
    · intro signed found
      rw [getElem?_page] at found
      split at found
      · rw [Bool.eq_false_iff]
        intro isStale
        have before := (stands.stale _ signed (Nat.le_add_right _ _) found).mp isStale
        omega
      · cases found
  rw [EpochChangeProof.verify, ends.lookup]
  dsimp only
  rw [fresh, Bool.not_false, ensure, if_pos rfl, ok_bind,
    dropped, valid.verifyChain _ stands.verified]
  rfl

/-!
## What a client makes of an answer
-/

variable {subtrees : List HashValue} {size : Nat}

variable (crypto leaf version) in
abbrev summaryAt :
    TransactionAccumulatorSummary :=
  ⟨summary crypto.transactionAccumulator leaf (version + 1)⟩

variable (crypto leaf subtrees) in
/-- The subtrees lead from one version of a ledger to another. -/
def Leads (first last : Nat) : Prop :=
  appendSubtrees crypto.transactionAccumulator
      (summaryAt crypto leaf first).accumulator subtrees (last - first) =
    .ok (summaryAt crypto leaf last).accumulator

section

variable (describes : Describes crypto leaf size signed)
include describes

theorem Describes.verifyConsistency :
    (summaryAt crypto leaf signed.ledgerInfo.version).verifyConsistency signed.ledgerInfo =
      .ok () := by
  have sameVersion :
      signed.ledgerInfo.version = (summaryAt crypto leaf signed.ledgerInfo.version).version :=
    rfl
  have sameRoot : signed.ledgerInfo.transactionAccumulatorHash =
        (summaryAt crypto leaf signed.ledgerInfo.version).rootHash :=
    describes.rootHash
  rw [TransactionAccumulatorSummary.verifyConsistency, ensure,
    if_pos sameVersion, ok_bind, ensure, if_pos sameRoot]

theorem tryExtendWithProof_summary (order : version ≤ signed.ledgerInfo.version)
    (leads : Leads crypto leaf subtrees version signed.ledgerInfo.version) :
    (summaryAt crypto leaf version).tryExtendWithProof
        crypto.transactionAccumulator ⟨subtrees⟩ signed.ledgerInfo =
      .ok (summaryAt crypto leaf signed.ledgerInfo.version) := by
  have sameVersion : (summaryAt crypto leaf version).accumulator.version = version := rfl
  rw [TransactionAccumulatorSummary.tryExtendWithProof, sameVersion]
  dsimp only
  rw [ensure, if_pos order, ok_bind, leads, ok_bind, describes.verifyConsistency]
  rfl

variable (crypto leaf size) in
/-- The leaves of a ledger are told apart by the root hashes. -/
def Binding : Prop :=
  ∃ isLeaf : HashValue → Prop,
    CollisionFree crypto.transactionAccumulator isLeaf ∧ ∀ index, index < size → isLeaf (leaf index)

variable (leaves : ∀ index, index < size → isLeaf (leaf index))
include leaves

theorem Describes.areLeaves :
    ∀ value ∈ (range (signed.ledgerInfo.version + 1)).map leaf, isLeaf value := by
  intro value member
  obtain ⟨index, listed, rfl⟩ := mem_map.mp member
  rw [mem_range] at listed
  have inside := describes.version
  exact leaves index (by omega)

theorem Describes.covers {old extended : TransactionAccumulatorSummary}
    {proof : AccumulatorConsistencyProof}
    (free : CollisionFree crypto.transactionAccumulator isLeaf) (small : size < 2 ^ 63)
    (accepted :
      old.tryExtendWithProof crypto.transactionAccumulator proof signed.ledgerInfo = .ok extended) :
    Covers crypto.transactionAccumulator (old.accumulator.frozenSubtreeRoots ++ proof.subtrees)
      ((range (signed.ledgerInfo.version + 1)).map leaf) := by
  have inside := describes.version
  have length : ((range (signed.ledgerInfo.version + 1)).map leaf).length =
        signed.ledgerInfo.version + 1 := by
    rw [length_map, length_range]
  have reads :
      LeavesFrom leaf 0 ((range (signed.ledgerInfo.version + 1)).map leaf) := by
    intro offset inside
    rw [get_eq_getElem, getElem_map, getElem_range, Nat.zero_add]
  have built : fromLeaves crypto.transactionAccumulator
          ((range (signed.ledgerInfo.version + 1)).map leaf) =
        .ok (summary crypto.transactionAccumulator leaf _) :=
    fromLeaves_eq_summary _ _ reads (by omega)
  rw [length] at built
  exact (TransactionAccumulatorSummary.tryExtendWithProof_target free
    (describes.areLeaves leaves) built describes.rootHash length accepted).2.2

end

/-- The page for a client stops one epoch before the latest epoch change. -/
def PageStops (ledger : Ledger) (version : Nat) : Prop :=
  ledger.current = none ∧
    ledger.ending.length = ledger.epochOf version + maxNumEpochEndingLedgerInfo + 1

instance (ledger : Ledger) (version : Nat) : Decidable (ledger.PageStops version) :=
  inferInstanceAs (Decidable (_ ∧ _))

theorem PageStops.more (stops : ledger.PageStops version) : ledger.more version = true := by
  have length := stops.2
  exact decide_eq_true (by omega)

variable (crypto leaf ledger version latest target) in
/-- The ledger info that the answer for a client reaches. -/
structure Reaches : Prop where
  isTarget : ledger.target version = some target
  order : version ≤ target.ledgerInfo.version
  describes : Describes crypto leaf ledger.size target
  reached : (ledger.more version = true ∧ target.ledgerInfo.version < latest.ledgerInfo.version ∧
      ledger.epochOf target.ledgerInfo.version + 1 =
        ledger.epochOf version + maxNumEpochEndingLedgerInfo) ∨
    (ledger.more version = false ∧ target = latest)

section

variable (valid : ledger.WellFormed crypto leaf)
  (isLatest : ledger.latest = some latest)
include valid isLatest

theorem WellFormed.epoch_latest :
    (ledger.current = none ∧ latest.ledgerInfo.endsEpoch = true ∧
        ledger.ending[latest.ledgerInfo.epoch]? = some latest ∧
        latest.ledgerInfo.epoch + 1 = ledger.ending.length) ∨
      (ledger.current = some latest ∧ latest.ledgerInfo.endsEpoch = false ∧
        latest.ledgerInfo.epoch = ledger.ending.length) := by
  rw [Ledger.latest] at isLatest
  cases opened : ledger.current with
  | some signed =>
    obtain ⟨noState, epoch, -⟩ := valid.opened signed opened
    rw [opened, toList_some, getLast?_concat, some.injEq] at isLatest
    subst isLatest
    refine .inr ⟨rfl, ?_, epoch⟩
    rw [LedgerInfo.endsEpoch, noState]
    rfl
  | none =>
    rw [opened, toList_none, append_nil, getLast?_eq_getElem?] at isLatest
    obtain ⟨epoch, state, installs, -⟩ := valid.ends _ latest isLatest
    have inside := (List.getElem?_eq_some_iff.mp isLatest).1
    refine .inl ⟨rfl, ?_, ?_, ?_⟩
    · rw [LedgerInfo.endsEpoch, installs]
      rfl
    · rw [epoch]
      exact isLatest
    · omega

theorem WellFormed.latest_all :
    (ledger.ending ++ ledger.current.toList)[latest.ledgerInfo.epoch]? = some latest := by
  rcases valid.epoch_latest isLatest with ⟨-, -, found, -⟩ | ⟨opened, -, epoch⟩
  · exact found_all found
  · rw [opened, epoch, toList_some, getElem?_concat_length]

/-- The latest ledger info is an epoch change or comes after it. -/
theorem WellFormed.le_latest (found : ledger.ending[epoch]? = some signed) :
    signed.ledgerInfo.version ≤ latest.ledgerInfo.version := by
  have inside := (List.getElem?_eq_some_iff.mp found).1
  refine valid.version_le ?_ found (valid.latest_all isLatest)
  rcases valid.epoch_latest isLatest with ⟨-, -, -, last⟩ | ⟨-, -, last⟩ <;> omega

/-- The last epoch change is the latest ledger info or opens its epoch. -/
theorem WellFormed.last_ending (found : ledger.ending[epoch]? = some signed)
    (last : epoch + 1 = ledger.ending.length) :
    signed = latest ∨ ledger.current = some latest ∧ latest.ledgerInfo.epoch = epoch + 1 := by
  rcases valid.epoch_latest isLatest with
    ⟨-, -, latestFound, latestEpoch⟩ | ⟨opened, -, latestEpoch⟩
  · have position : latest.ledgerInfo.epoch = epoch := by omega
    rw [position, found, some.injEq] at latestFound
    exact .inl latestFound
  · exact .inr ⟨opened, latestEpoch.trans last.symm⟩

/-- The ledger info that a client checks an answer against. -/
theorem WellFormed.verifiedLedgerInfo {last : Nat} {state : EpochState}
    (isTarget : ledger.target version = some target) (ends : ledger.PageEnds version last change)
    (installs : change.ledgerInfo.nextEpochState = some state)
    (known : ledger.epochOf version ≤ last) :
    TrustedState.verifiedLedgerInfo crypto state change latest (ledger.more version) =
      .ok (if ledger.PageStops version then latest else target) := by
  obtain ⟨shape, isLast, lookup⟩ := ends
  obtain ⟨changeEpoch, other, otherInstalls, epochs⟩ := valid.ends last change isLast
  rw [installs, some.injEq] at otherInstalls
  subst otherInstalls
  have length := ledger.length_page version
  have different : latest.ledgerInfo.epoch ≠ last → change ≠ latest := by
    rintro other rfl
    exact other changeEpoch
  have signedBy : latest.ledgerInfo.epoch = last + 1 →
        (Verifier.epochState state).verify crypto latest = .ok () := by
    intro next
    have found := valid.latest_all isLatest
    rw [next] at found
    exact valid.verify_next isLast installs found
  rw [TrustedState.verifiedLedgerInfo, epochs]
  by_cases isMore : maxNumEpochEndingLedgerInfo < ledger.ending.length - ledger.epochOf version
  · -- the page is full and there are more epoch changes
    have more : ledger.more version = true := decide_eq_true isMore
    have targetIsLast : target = change := by
      rw [Ledger.target, if_pos more, lookup, some.injEq] at isTarget
      exact isTarget.symm
    rcases valid.epoch_latest isLatest with
      ⟨closed, -, latestFound, latestEpoch⟩ | ⟨opened, -, latestEpoch⟩
    · rw [if_neg (different (by omega))]
      by_cases stops : latest.ledgerInfo.epoch = last + 1
      · have stuck : ledger.PageStops version := .intro closed (by omega)
        rw [if_pos stops, signedBy stops, ok_bind, if_pos stuck]
        rfl
      · have goesOn : ¬ ledger.PageStops version := fun both => stops (by have := both.2; omega)
        rw [if_neg stops, if_pos ⟨by omega, more⟩, if_neg goesOn, targetIsLast]
    · rw [if_neg (different (by omega)), if_neg (by omega), if_pos ⟨by omega, more⟩,
        if_neg, targetIsLast]
      rintro ⟨closed, -⟩
      rw [opened] at closed
      cases closed
  · -- the page has all epoch changes
    have noMore : ledger.more version = false := decide_eq_false isMore
    have targetIsLatest : target = latest := by
      rw [Ledger.target, noMore, if_neg (by simp), isLatest, some.injEq] at isTarget
      exact isTarget.symm
    have notStuck : ¬ ledger.PageStops version := fun both => isMore (by have := both.2; omega)
    rw [if_neg notStuck, targetIsLatest]
    rcases valid.last_ending isLatest isLast (by omega) with rfl | ⟨-, next⟩
    · rw [if_pos rfl]
    · rw [if_neg (different (by omega)), if_pos (by omega), signedBy (by omega)]
      rfl

theorem WellFormed.stuck_iff (version : Nat) : ledger.Stuck version ↔ ledger.PageStops version := by
  rw [Stuck, isLatest]
  constructor
  · rintro ⟨other, same, ends, epoch⟩
    cases same
    rcases valid.epoch_latest isLatest with
      ⟨closed, -, -, length⟩ | ⟨-, endsNot, -⟩
    · exact ⟨closed, by omega⟩
    · rw [ends] at endsNot
      cases endsNot
  · rintro ⟨closed, length⟩
    rcases valid.epoch_latest isLatest with
      ⟨-, ends, -, epoch⟩ | ⟨opened, -⟩
    · exact ⟨latest, rfl, ends, by omega⟩
    · rw [closed] at opened
      cases opened

theorem WellFormed.exists_reaches (notAhead : version ≤ latest.ledgerInfo.version) :
    ∃ target, ledger.Reaches crypto leaf version latest target := by
  have length := ledger.length_page version
  by_cases isMore : maxNumEpochEndingLedgerInfo < ledger.ending.length - ledger.epochOf version
  · have positive : 0 < maxNumEpochEndingLedgerInfo := by decide
    have yes : ledger.more version = true := decide_eq_true isMore
    obtain ⟨last, signed, shape, found, lookup⟩ :=
      ledger.exists_pageEnds (by omega : ledger.epochOf version < _)
    have foundAll := found_all found
    refine ⟨signed, ?_, valid.le_version_of_epochOf_le (by omega) foundAll (by omega),
      valid.describes _ (mem_of_getElem? foundAll), .inl ⟨yes, ?_, ?_⟩⟩
    · rw [target, if_pos yes, lookup]
    · refine valid.version_lt ?_ found (valid.latest_all isLatest)
      rcases valid.epoch_latest isLatest with ⟨-, -, -, epoch⟩ | ⟨-, -, epoch⟩ <;> omega
    · rw [valid.epochOf_ending found]
      omega
  · have no : ledger.more version = false := decide_eq_false isMore
    refine ⟨latest, ?_, notAhead, valid.describes latest (mem_of_getLast? isLatest),
      .inr ⟨no, rfl⟩⟩
    rw [target, if_neg (by simp [no])]
    exact isLatest

/-- What a client that needs epoch changes makes of an answer. -/
theorem WellFormed.ratchetEpoch (accumulator : TransactionAccumulatorSummary)
    (isTarget : ledger.target version = some target)
    (stands : ledger.StandsAt crypto version epoch state.verifier) :
    ∃ change newState, (¬ ledger.PageStops version →
      ∃ last, ledger.InForce target.ledgerInfo.version last newState) ∧
      state.ratchetEpoch crypto accumulator latest
          ⟨ledger.page version, ledger.more version⟩ consistencyProof =
        (do
          let verified := if ledger.PageStops version then latest else target
          let newAccumulator ←
            accumulator.tryExtendWithProof crypto.transactionAccumulator
              consistencyProof verified.ledgerInfo
          return .epoch (.epochState (newAny crypto verified.ledgerInfo) newState newAccumulator)
            change) := by
  have length := ledger.length_page version
  have first := stands.first
  have second := stands.second
  have inside := stands.inside
  have limit : maxNumEpochEndingLedgerInfo = 100 := rfl
  obtain ⟨last, change, ends⟩ := ledger.exists_pageEnds (Nat.lt_of_le_of_lt first inside)
  have ⟨shape, isLast, lookup⟩ := ends
  obtain ⟨-, newState, installs, -⟩ := valid.ends last _ isLast
  refine ⟨change, newState, ?_, ?_⟩
  · intro notStuck
    refine ⟨last, ?_⟩
    rw [Ledger.target] at isTarget
    split at isTarget
    · rw [lookup, some.injEq] at isTarget
      rw [← isTarget]
      exact valid.inForce_ending isLast installs
    · rename_i noMore
      have all : last + 1 = ledger.ending.length := by
        rw [more, decide_eq_true_iff] at noMore
        omega
      rw [isLatest, some.injEq] at isTarget
      rw [← isTarget]
      rcases valid.last_ending isLatest isLast all with rfl | -
      · exact valid.inForce_ending isLast installs
      · refine ⟨_, isLast, ?_, ?_, installs⟩
        · exact valid.le_latest isLatest isLast
        · intro next found
          rw [getElem?_eq_none (by omega)] at found
          cases found
  · rw [TrustedState.ratchetEpoch, valid.verify_page stands ends (by omega),
      ok_bind, installs, Fallible.okOr, ok_bind]
    rw [valid.verifiedLedgerInfo isLatest isTarget ends installs (by omega), ok_bind]

variable (reaches : ledger.Reaches crypto leaf version latest target)
  (leads : Leads crypto leaf subtrees version target.ledgerInfo.version)
  (stands : ledger.StandsAt crypto version epoch state.verifier)
include reaches leads stands

/-- An answer that reaches the ledger info that the client checks is accepted. -/
theorem WellFormed.ratchetEpoch_ok (notStuck : ¬ ledger.PageStops version) :
    ∃ change newState last, ledger.InForce target.ledgerInfo.version last newState ∧
      state.ratchetEpoch crypto (summaryAt crypto leaf version) latest
          ⟨ledger.page version, ledger.more version⟩ ⟨subtrees⟩ =
        .ok (.epoch
          (.epochState (newAny crypto target.ledgerInfo) newState
            (summaryAt crypto leaf target.ledgerInfo.version))
          change) := by
  obtain ⟨change, newState, inForce, ratcheted⟩ :=
    valid.ratchetEpoch isLatest (summaryAt crypto leaf version) reaches.isTarget stands
  obtain ⟨last, inForce⟩ := inForce notStuck
  refine ⟨change, newState, last, inForce, ?_⟩
  rw [ratcheted, if_neg notStuck]
  dsimp only
  rw [tryExtendWithProof_summary reaches.describes reaches.order leads]
  rfl

/-- An answer that reaches another ledger info is refused. -/
theorem WellFormed.ratchetEpoch_refused (binding : Binding crypto leaf ledger.size)
    (stuck : ledger.PageStops version) (change : TrustedStateChange) :
    state.ratchetEpoch crypto (summaryAt crypto leaf version) latest
        ⟨ledger.page version, ledger.more version⟩ ⟨subtrees⟩ ≠
      .ok change := by
  intro ratcheted
  obtain ⟨last, newState, -, shape⟩ :=
    valid.ratchetEpoch isLatest (summaryAt crypto leaf version) reaches.isTarget stands
  rw [shape, if_pos stuck] at ratcheted
  obtain ⟨extended, accepted, -⟩ := Fallible.bind_eq_ok_iff.mp ratcheted
  -- the roots and subtrees cover the leaves of both ledger infos
  obtain ⟨isLeaf, free, leaves⟩ := binding
  have latestDescribes := valid.describes latest (mem_of_getLast? isLatest)
  have describes := reaches.describes
  have covers := describes.covers leaves free valid.small
    (tryExtendWithProof_summary describes reaches.order leads)
  have coversLatest := latestDescribes.covers leaves free valid.small accepted
  have sameRoots : ∀ {roots leaves : List HashValue},
        Covers crypto.transactionAccumulator roots leaves →
          Covers crypto.transactionAccumulator (roots ++ []) leaves := by
    intro roots leaves covers
    rw [append_nil]
    exact covers
  have forward := (covers.starts_total free (describes.areLeaves leaves)
    (latestDescribes.areLeaves leaves) (sameRoots coversLatest)).length_le
  have backward := (coversLatest.starts_total free (latestDescribes.areLeaves leaves)
    (describes.areLeaves leaves) (sameRoots covers)).length_le
  rw [length_map, length_range, length_map, length_range] at forward backward
  have isMore := stuck.more
  rcases reaches.reached with ⟨-, before, -⟩ | ⟨noMore, -⟩
  · omega
  · rw [isMore] at noMore
    cases noMore

end

/-!
## Clients on the ledger
-/

theorem Client.version_eq (client : ledger.Client crypto leaf state initial version) :
    state.version = version := by
  cases client <;> rfl

section

variable (valid : ledger.WellFormed crypto leaf)
include valid

theorem WellFormed.exists_latest (client : ledger.Client crypto leaf state initial version) :
    ∃ latest, ledger.latest = some latest ∧ version ≤ latest.ledgerInfo.version := by
  cases client with
  | epochState isLatest notAhead agrees inForce => exact ⟨_, isLatest, notAhead⟩
  | @waypoint epoch signed ends =>
    have inside := (List.getElem?_eq_some_iff.mp ends).1
    have notEmpty : (ledger.ending ++ ledger.current.toList) ≠ [] := by
      intro none
      rw [append_eq_nil_iff] at none
      rw [none.1] at inside
      exact absurd inside (Nat.not_lt_zero _)
    obtain ⟨latest, isLatest⟩ : ∃ latest, ledger.latest = some latest :=
      ⟨_, getLast?_eq_some_getLast notEmpty⟩
    exact ⟨latest, isLatest, valid.le_latest isLatest ends⟩

/-- A client that knows the validators needs epoch changes. -/
theorem WellFormed.standsAt_epochState {state : EpochState}
    (inForce : ledger.InForce version epoch state) (required : epoch + 1 < ledger.ending.length) :
    ledger.StandsAt crypto version (epoch + 1) (.epochState state) := by
  obtain ⟨stateEpoch, -, lower, upper⟩ := valid.epoch_of_inForce inForce
  obtain ⟨last, found, -, -, installs⟩ := inForce
  refine ⟨upper, by omega, required, ?_, ?_⟩
  · intro other signed known foundOther
    obtain ⟨otherEpoch, -⟩ := valid.ends other signed foundOther
    rw [Verifier.isLedgerInfoStale, decide_eq_true_iff, stateEpoch, otherEpoch]
  · intro signed foundNext
    exact valid.verify_next found installs (found_all foundNext)

/-- A client that knows a waypoint needs epoch changes. -/
theorem WellFormed.standsAt_waypoint (ends : ledger.ending[epoch]? = some signed) :
    ledger.StandsAt crypto signed.ledgerInfo.version epoch
      (.waypoint (newAny crypto signed.ledgerInfo)) := by
  have known := valid.epochOf_ending ends
  have inside := (List.getElem?_eq_some_iff.mp ends).1
  refine ⟨known.le, by omega, inside, ?_, ?_⟩
  · intro other later after found
    have reached := valid.le_version_of_epochOf_le after (found_all found) (by omega)
    rw [Verifier.isLedgerInfoStale, decide_eq_true_iff, newAny]
    dsimp only
    omega
  · intro other found
    rw [ends, some.injEq] at found
    rw [← found, Verifier.verify, Waypoint.verify, newAny, ensure, if_pos rfl, ok_bind, ensure,
      if_pos rfl]

theorem WellFormed.currAccumulator (client : ledger.Client crypto leaf state initial version) :
    state.currAccumulator ⟨ledger.page version, ledger.more version⟩ initial =
      .ok (summaryAt crypto leaf version) := by
  cases client with
  | epochState isLatest notAhead agrees inForce => rfl
  | @waypoint epoch signed ends =>
    have head : (ledger.page signed.ledgerInfo.version).head? = some signed := by
      rw [head?_eq_getElem?, getElem?_page, if_pos (by decide), valid.epochOf_ending ends]
      exact ends
    have describes := valid.describes signed (mem_append_left _ (mem_of_getElem? ends))
    rw [TrustedState.currAccumulator, Fallible.expect, ok_bind, head,
      Fallible.okOr, ok_bind, describes.verifyConsistency]
    rfl

/-- A client at the last epoch change needs no more of them. -/
theorem WellFormed.ratchetVersion {waypoint : Waypoint} {state : EpochState}
    (isLatest : ledger.latest = some latest)
    (notAhead : waypoint.version ≤ latest.ledgerInfo.version)
    (agrees :
      waypoint.version = latest.ledgerInfo.version → waypoint = newAny crypto latest.ledgerInfo)
    (inForce : ledger.InForce waypoint.version epoch state)
    (lastEpoch : epoch + 1 = ledger.ending.length)
    (leads : Leads crypto leaf subtrees waypoint.version latest.ledgerInfo.version) :
    ∃ change, TrustedState.ratchetVersion crypto
        (.epochState waypoint state (summaryAt crypto leaf waypoint.version))
        (summaryAt crypto leaf waypoint.version)
        latest ⟨subtrees⟩ =
      .ok change ∧
      change.newState.getD (.epochState waypoint state (summaryAt crypto leaf waypoint.version)) =
        .epochState (newAny crypto latest.ledgerInfo) state
          (summaryAt crypto leaf latest.ledgerInfo.version) := by
  rw [TrustedState.ratchetVersion]
  have newVersion : (newAny crypto latest.ledgerInfo).version = latest.ledgerInfo.version := rfl
  rw [newVersion]
  by_cases same : latest.ledgerInfo.version = waypoint.version
  · have sameWaypoint := agrees same.symm
    refine ⟨.noChange, ?_, ?_⟩
    · rw [if_pos same, ensure, if_pos sameWaypoint.symm]
      rfl
    · rw [← same, ← sameWaypoint]
      rfl
  · rw [if_neg same]
    obtain ⟨last, found, small, -, installs⟩ := inForce
    -- the latest ledger info is one of the open epoch
    have opened : ledger.current = some latest := by
      rcases valid.last_ending isLatest found lastEpoch with rfl | ⟨opened, -⟩
      · omega
      · exact opened
    have accepted : (Verifier.epochState state).verify crypto latest = .ok () := by
      refine valid.verify_next found installs ?_
      rw [lastEpoch, opened, toList_some, getElem?_concat_length]
    have describes := valid.describes latest (mem_of_getLast? isLatest)
    refine ⟨.version
      (.epochState (newAny crypto latest.ledgerInfo) state
        (summaryAt crypto leaf latest.ledgerInfo.version)), ?_, rfl⟩
    rw [accepted, ok_bind, tryExtendWithProof_summary describes notAhead leads]
    rfl

end

theorem InForce.of_le {state : EpochState} (inForce : ledger.InForce version epoch state)
    (lastEpoch : epoch + 1 = ledger.ending.length) {later : Nat} (order : version ≤ later) :
    ledger.InForce later epoch state := by
  obtain ⟨last, found, small, -, installs⟩ := inForce
  refine ⟨last, found, small.trans order, ?_, installs⟩
  intro next foundNext
  rw [lastEpoch, getElem?_eq_none le_rfl] at foundNext
  cases foundNext

section

variable (valid : ledger.WellFormed crypto leaf)
  (client : ledger.Client crypto leaf state initial version)
include valid client

theorem WellFormed.verifyAndRatchet_eq (isLatest : ledger.latest = some latest)
    (notAhead : version ≤ latest.ledgerInfo.version) :
    state.verifyAndRatchet crypto
        ⟨latest, ⟨ledger.page version, ledger.more version⟩, consistencyProof⟩
        initial =
      if state.verifier.epochChangeVerificationRequired ledger.ending.length then
        state.ratchetEpoch crypto (summaryAt crypto leaf version) latest
          ⟨ledger.page version, ledger.more version⟩ consistencyProof
      else
        state.ratchetVersion crypto (summaryAt crypto leaf version) latest
          consistencyProof := by
  have fresh : latest.ledgerInfo.version ≥ state.version := by
    rw [client.version_eq]
    exact notAhead
  rw [TrustedState.verifyAndRatchet, TrustedState.verifyAndRatchetInner, ensure, if_pos fresh,
    ok_bind, valid.currAccumulator client, ok_bind, valid.nextBlockEpoch_latest isLatest]

/-- A client that needs no epoch changes knows all of them. -/
theorem WellFormed.client_cases :
    (state.verifier.epochChangeVerificationRequired ledger.ending.length = true ∧
      ∃ epoch, ledger.StandsAt crypto version epoch state.verifier) ∨
    (state.verifier.epochChangeVerificationRequired ledger.ending.length = false ∧
      ∃ waypoint validators epoch latest, waypoint.version = version ∧
        state = .epochState waypoint validators (summaryAt crypto leaf waypoint.version) ∧
        ledger.latest = some latest ∧
        (waypoint.version = latest.ledgerInfo.version →
          waypoint = newAny crypto latest.ledgerInfo) ∧
        ledger.InForce waypoint.version epoch validators ∧
        epoch + 1 = ledger.ending.length) := by
  cases client with
  | @epochState waypoint epoch validators latest initial isLatest notAhead agrees inForce =>
      obtain ⟨stateEpoch, inside, -, -⟩ := valid.epoch_of_inForce inForce
      by_cases required : epoch + 1 < ledger.ending.length
      · refine .inl ⟨?_, epoch + 1, valid.standsAt_epochState inForce required⟩
        exact decide_eq_true (by rw [stateEpoch]; exact required)
      · refine .inr ⟨?_, waypoint, validators, epoch, latest, rfl, rfl,
          isLatest, agrees, inForce, by omega⟩
        exact decide_eq_false (by rw [stateEpoch]; exact required)
  | @waypoint epoch signed ends => exact .inl ⟨rfl, epoch, valid.standsAt_waypoint ends⟩

end

end Ledger

namespace LedgerStore

open Ledger (summaryAt)

variable {store : LedgerStore} (stores : Stores crypto leaf store ledger)
  (valid : ledger.WellFormed crypto leaf)
  (client : ledger.Client crypto leaf state initial version)
  (isLatest : ledger.latest = some latest)
  (notAhead : version ≤ latest.ledgerInfo.version)
  (reaches : ledger.Reaches crypto leaf version latest target)
include stores valid client isLatest notAhead reaches

/-- A client accepts what the store answers and moves to the ledger info it reaches. -/
theorem Stores.accepts (notStuck : ¬ ledger.PageStops version) :
    ∃ stateProof change, store.getStateProof version = .ok stateProof ∧
      state.verifyAndRatchet crypto stateProof initial = .ok change ∧
      (change.newState.getD state).waypoint = newAny crypto target.ledgerInfo ∧
      ∀ other, ledger.Client crypto leaf (change.newState.getD state) other
        target.ledgerInfo.version := by
  obtain ⟨subtrees, answered, leads⟩ :=
    stores.getStateProof valid isLatest notAhead reaches.isTarget reaches.order
  have bound : target.ledgerInfo.version ≤ latest.ledgerInfo.version ∧
        (target.ledgerInfo.version = latest.ledgerInfo.version → target = latest) := by
    rcases reaches.reached with ⟨-, before, -⟩ | ⟨-, rfl⟩
    · exact ⟨before.le, fun same => absurd same before.ne⟩
    · exact ⟨le_rfl, fun _ => rfl⟩
  have next : ∀ {epoch : Nat} {validators : EpochState},
        ledger.InForce target.ledgerInfo.version epoch validators →
        ∀ other, ledger.Client crypto leaf
          (.epochState (newAny crypto target.ledgerInfo) validators
            (summaryAt crypto leaf target.ledgerInfo.version))
          other target.ledgerInfo.version := by
    intro epoch validators inForce other
    have moved : (newAny crypto target.ledgerInfo).version = latest.ledgerInfo.version →
          newAny crypto target.ledgerInfo = newAny crypto latest.ledgerInfo := by
      intro same
      rw [bound.2 same]
    exact Ledger.Client.epochState isLatest bound.1 moved inForce
  refine ⟨⟨latest, ⟨ledger.page version, ledger.more version⟩, ⟨subtrees⟩⟩, ?_⟩
  rw [valid.verifyAndRatchet_eq client isLatest notAhead]
  rcases valid.client_cases client with
    ⟨required, epoch, stands⟩ |
      ⟨notRequired, waypoint, validators, epoch, other, rfl, rfl, otherLatest,
        agrees, inForce, lastEpoch⟩
  · obtain ⟨change, newState, last, inForce, ratcheted⟩ :=
      valid.ratchetEpoch_ok isLatest reaches leads stands notStuck
    refine ⟨.epoch
      (.epochState (newAny crypto target.ledgerInfo) newState
        (summaryAt crypto leaf target.ledgerInfo.version))
      change, answered, ?_, rfl, next inForce⟩
    rw [if_pos required]
    exact ratcheted
  · rw [isLatest, some.injEq] at otherLatest
    subst otherLatest
    obtain ⟨-, -, lower, -⟩ := valid.epoch_of_inForce inForce
    have limit : maxNumEpochEndingLedgerInfo = 100 := rfl
    have noMore : ledger.more waypoint.version = false := decide_eq_false (by omega)
    rcases reaches.reached with ⟨isMore, -⟩ | ⟨-, rfl⟩
    · rw [noMore] at isMore
      cases isMore
    · obtain ⟨change, ratcheted, moved⟩ :=
        valid.ratchetVersion isLatest notAhead agrees inForce lastEpoch leads
      refine ⟨change, answered, ?_, ?_, ?_⟩
      · rw [if_neg (by rw [notRequired]; nofun)]
        exact ratcheted
      · rw [moved]
        rfl
      · rw [moved]
        exact next (inForce.of_le lastEpoch notAhead)

/-- A client refuses the answer whose page stops before the latest epoch change. -/
theorem Stores.refuses (binding : Ledger.Binding crypto leaf ledger.size)
    (stuck : ledger.PageStops version) :
    ∃ stateProof, store.getStateProof version = .ok stateProof ∧
      ∀ change, state.verifyAndRatchet crypto stateProof initial ≠ .ok change := by
  obtain ⟨subtrees, answered, leads⟩ :=
    stores.getStateProof valid isLatest notAhead reaches.isTarget reaches.order
  refine ⟨_, answered, ?_⟩
  intro change
  rw [valid.verifyAndRatchet_eq client isLatest notAhead]
  rcases valid.client_cases client with
    ⟨required, epoch, stands⟩ |
      ⟨-, waypoint, validators, epoch, other, rfl, -, -, -, inForce, lastEpoch⟩
  · rw [if_pos required]
    exact valid.ratchetEpoch_refused isLatest reaches leads stands binding stuck change
  · obtain ⟨-, -, lower, -⟩ := valid.epoch_of_inForce inForce
    have length := stuck.2
    have limit : maxNumEpochEndingLedgerInfo = 100 := rfl
    omega

end LedgerStore

end Diem
