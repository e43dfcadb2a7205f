import Diem.StateProofs

namespace Diem

open MerkleForest
open InMemoryAccumulator (summary)
open LedgerStore (Stores maxNumEpochEndingLedgerInfo)
open Fallible List Option Nat Ledger Crypto
open Waypoint (newAny)

/-!
# Clients that sync with an honest node

A client repeats request and ratchet until it is at the latest ledger info.  A full page
of epoch changes takes it ninety-nine epochs further, so it gets there after finitely
many rounds, unless one of them starts a page and one epoch before a latest ledger info
that ends its epoch.
-/

namespace LedgerStore

/-- Ask for a state proof and move to the state it proves. -/
def syncOneStep (crypto : Crypto) (store : LedgerStore)
    (initialAccumulator : Option TransactionAccumulatorSummary) (state : TrustedState) :
    Fallible TrustedState := do
  let stateProof ← store.getStateProof state.version
  let change ← state.verifyAndRatchet crypto stateProof initialAccumulator
  return change.newState.getD state

/-- Request and ratchet a number of times. -/
def syncSteps (crypto : Crypto) (store : LedgerStore)
    (initialAccumulator : Option TransactionAccumulatorSummary) :
    Nat → TrustedState → Fallible TrustedState
  | 0, state => .ok state
  | rounds + 1, state => do
      let next ← store.syncOneStep crypto initialAccumulator state
      syncSteps crypto store initialAccumulator rounds next

end LedgerStore

namespace Ledger

variable {crypto : Crypto} {leaf : Nat → HashValue} {ledger : Ledger}

/-- The client is refused now or after some rounds. -/
def Trapped (ledger : Ledger) (version : Nat) : Prop :=
  ∃ latest rounds, ledger.latest = some latest ∧ latest.ledgerInfo.endsEpoch = true ∧
    latest.ledgerInfo.epoch = ledger.epochOf version + (maxNumEpochEndingLedgerInfo - 1) * rounds +
      maxNumEpochEndingLedgerInfo

theorem trapped_iff (version : Nat) :
    ledger.Trapped version ↔ ledger.Stuck version ∨
      ∃ latest rounds, ledger.latest = some latest ∧ latest.ledgerInfo.endsEpoch = true ∧
        latest.ledgerInfo.epoch =
          ledger.epochOf version + (maxNumEpochEndingLedgerInfo - 1) * (rounds + 1) +
            maxNumEpochEndingLedgerInfo := by
  constructor
  · rintro ⟨latest, rounds, isLatest, ends, epoch⟩
    cases rounds with
    | zero => exact .inl ⟨latest, isLatest, ends, epoch⟩
    | succ rounds => exact .inr ⟨latest, rounds, isLatest, ends, epoch⟩
  · rintro (⟨latest, isLatest, ends, epoch⟩ | ⟨latest, rounds, isLatest, ends, epoch⟩)
    · exact ⟨latest, 0, isLatest, ends, epoch⟩
    · exact ⟨latest, rounds + 1, isLatest, ends, epoch⟩

variable {version : Nat} {latest : LedgerInfoWithSignatures}

/-- Where the next rounds of a client with more epoch changes to come lead. -/
theorem Reaches.trapped_iff {target : LedgerInfoWithSignatures}
    (reaches : ledger.Reaches crypto leaf version latest target)
    (isMore : ledger.more version = true) (notStuck : ¬ ledger.Stuck version) :
    ledger.Trapped target.ledgerInfo.version ↔ ledger.Trapped version := by
  have limit : maxNumEpochEndingLedgerInfo = 100 := rfl
  rcases reaches.reached with ⟨-, -, epochs⟩ | ⟨noMore, -⟩
  · rw [Ledger.trapped_iff version]
    constructor
    · rintro ⟨latest, rounds, isLatest, ends, epoch⟩
      refine .inr ⟨latest, rounds, isLatest, ends, ?_⟩
      rw [limit] at epochs epoch ⊢
      omega
    · rintro (stuck | ⟨latest, rounds, isLatest, ends, epoch⟩)
      · exact absurd stuck notStuck
      · refine ⟨latest, rounds, isLatest, ends, ?_⟩
        rw [limit] at epochs epoch ⊢
        omega
  · rw [isMore] at noMore
    cases noMore

/-- A client that will be refused has more epoch changes to come. -/
theorem WellFormed.more_of_trapped (valid : ledger.WellFormed crypto leaf)
    (isLatest : ledger.latest = some latest) (notAhead : version ≤ latest.ledgerInfo.version)
    (trapped : ledger.Trapped version) :
    ledger.more version = true ∧ version < latest.ledgerInfo.version := by
  have limit : maxNumEpochEndingLedgerInfo = 100 := rfl
  obtain ⟨other, rounds, otherLatest, ends, epoch⟩ := trapped
  rw [isLatest, some.injEq] at otherLatest
  subst otherLatest
  rcases valid.epoch_latest isLatest with
    ⟨-, -, found, length⟩ | ⟨-, endsNot, -⟩
  · refine ⟨decide_eq_true (by omega), notAhead.lt_of_ne ?_⟩
    rintro rfl
    have known := valid.epochOf_ending found
    omega
  · rw [ends] at endsNot
    cases endsNot

end Ledger

namespace LedgerStore

variable {crypto : Crypto} {leaf : Nat → HashValue} {ledger : Ledger}
  {store : LedgerStore} {initial : Option TransactionAccumulatorSummary}
  {latest : LedgerInfoWithSignatures} {state : TrustedState} {version : Nat}

section

variable (stores : Stores crypto leaf store ledger)
  (valid : ledger.WellFormed crypto leaf)
  (client : ledger.Client crypto leaf state initial version)
  (isLatest : ledger.latest = some latest)
  (notAhead : version ≤ latest.ledgerInfo.version)
include stores valid client isLatest notAhead

/-- A client that is never refused reaches the latest ledger info. -/
theorem Stores.syncSteps_reaches (free : ¬ ledger.Trapped version) :
    ∃ rounds final, store.syncSteps crypto initial rounds state = .ok final ∧
      final.waypoint = newAny crypto latest.ledgerInfo := by
  -- each full page of epoch changes brings the client closer to the latest epoch
  induction distance : ledger.ending.length - ledger.epochOf version
      using Nat.strong_induction_on generalizing state version with
  | _ distance ih =>
    have notStuck : ¬ ledger.Stuck version :=
      fun stuck => free ((trapped_iff version).mpr (.inl stuck))
    obtain ⟨target, reaches⟩ := valid.exists_reaches isLatest notAhead
    obtain ⟨stateProof, change, answered, accepted, moved, next⟩ :=
      stores.accepts valid client isLatest notAhead reaches
        fun stops => notStuck ((valid.stuck_iff isLatest _).mpr stops)
    have step : store.syncOneStep crypto initial state = .ok (change.newState.getD state) := by
      rw [syncOneStep, client.version_eq, answered, ok_bind, accepted]
      rfl
    rcases reaches.reached with ⟨isMore, before, epochs⟩ | ⟨-, same⟩
    · have limit : maxNumEpochEndingLedgerInfo = 100 := rfl
      have room : _ < _ := of_decide_eq_true isMore
      obtain ⟨rounds, final, synced, reached⟩ := ih _ (by omega) (next initial) before.le
        (fun trapped => free ((reaches.trapped_iff isMore notStuck).mp trapped))
        rfl
      refine ⟨rounds + 1, final, ?_, reached⟩
      rw [syncSteps, step, ok_bind]
      exact synced
    · refine ⟨1, change.newState.getD state, ?_, ?_⟩
      · rw [syncSteps, step, ok_bind, syncSteps]
      · rw [moved, same]

/-- A client that is refused at some point never reaches the latest ledger info. -/
theorem Stores.syncSteps_trapped (binding : Ledger.Binding crypto leaf ledger.size)
    {final : TrustedState} (trapped : ledger.Trapped version) {rounds : Nat}
    (synced : store.syncSteps crypto initial rounds state = .ok final) :
    final.version < latest.ledgerInfo.version := by
  induction rounds generalizing state version with
  | zero =>
    rw [syncSteps, Except.ok.injEq] at synced
    rw [← synced, client.version_eq]
    exact (valid.more_of_trapped isLatest notAhead trapped).2
  | succ rounds ih =>
    obtain ⟨target, reaches⟩ := valid.exists_reaches isLatest notAhead
    rw [syncSteps, syncOneStep, client.version_eq] at synced
    by_cases stuck : ledger.Stuck version
    · obtain ⟨stateProof, answered, refused⟩ :=
        stores.refuses valid client isLatest notAhead reaches binding
          ((valid.stuck_iff isLatest _).mp stuck)
      obtain ⟨next, ratcheted, -⟩ := bind_eq_ok_iff.mp synced
      rw [answered, ok_bind] at ratcheted
      obtain ⟨change, accepted, -⟩ := bind_eq_ok_iff.mp ratcheted
      exact absurd accepted (refused change)
    · obtain ⟨stateProof, change, answered, accepted, -, next⟩ :=
        stores.accepts valid client isLatest notAhead reaches
          fun stops => stuck ((valid.stuck_iff isLatest _).mpr stops)
      rw [answered, ok_bind, accepted] at synced
      rcases reaches.reached with ⟨isMore, before, -⟩ | ⟨noMore, -⟩
      · exact ih (next initial) before.le ((reaches.trapped_iff isMore stuck).mpr trapped) synced
      · rw [(valid.more_of_trapped isLatest notAhead trapped).1] at noMore
        cases noMore

end

/-- How an honest node serves a client on its ledger. -/
structure Serves (crypto : Crypto) (leaf : Nat → HashValue) (ledger : Ledger) (store : LedgerStore)
    (state : TrustedState) (initial : Option TransactionAccumulatorSummary)
    (version : Nat) : Prop where
  accepted : ¬ ledger.Stuck version →
    ∃ stateProof change, store.getStateProof version = .ok stateProof ∧
      state.verifyAndRatchet crypto stateProof initial = .ok change
  synced : ¬ ledger.Trapped version → ∃ latest rounds final,
    ledger.latest = some latest ∧ store.syncSteps crypto initial rounds state = .ok final ∧
      final.waypoint = newAny crypto latest.ledgerInfo
  refused : Ledger.Binding crypto leaf ledger.size → ledger.Stuck version →
    ∃ stateProof, store.getStateProof version = .ok stateProof ∧
      ∀ change, state.verifyAndRatchet crypto stateProof initial ≠ .ok change
  trapped : Ledger.Binding crypto leaf ledger.size → ledger.Trapped version →
    ∀ latest rounds final, ledger.latest = some latest →
      store.syncSteps crypto initial rounds state = .ok final →
        final.version < latest.ledgerInfo.version

/--
A node that saved what is certified serves every client on its ledger.  The client
accepts the answers and reaches the latest ledger info, unless that one ends the epoch
right after a full page of epoch changes.
-/
theorem stateProofs_serve
    (crypto : Crypto)
    (leaf : Nat → HashValue)
    (saves : List Ledger.Save)
    (admits : Ledger.empty.AdmitsAll crypto leaf saves) :
    ∃ store, LedgerStore.empty.saveAll crypto.transactionAccumulator 0 saves = .ok store ∧
      ∀ state initial version,
        (saves.foldl Ledger.extend Ledger.empty).Client crypto leaf state initial version →
          Serves crypto leaf (saves.foldl Ledger.extend Ledger.empty) store
            state initial version := by
  obtain ⟨store, saved, stores, valid⟩ := stores_empty.saveAll wellFormed_empty admits
  refine ⟨store, saved, ?_⟩
  intro state initial version client
  obtain ⟨latest, isLatest, notAhead⟩ := valid.exists_latest client
  obtain ⟨target, reaches⟩ := valid.exists_reaches isLatest notAhead
  have stuckIff := valid.stuck_iff isLatest version
  refine ⟨?_, ?_, ?_, ?_⟩
  · intro notStuck
    obtain ⟨stateProof, change, answered, accepted, -⟩ :=
      stores.accepts valid client isLatest notAhead reaches
        fun stops => notStuck (stuckIff.mpr stops)
    exact ⟨stateProof, change, answered, accepted⟩
  · intro free
    obtain ⟨rounds, final, synced, reached⟩ :=
      stores.syncSteps_reaches valid client isLatest notAhead free
    exact ⟨latest, rounds, final, isLatest, synced, reached⟩
  · intro binding stuck
    exact stores.refuses valid client isLatest notAhead reaches binding (stuckIff.mp stuck)
  · intro binding trapped other rounds final otherLatest synced
    rw [isLatest, some.injEq] at otherLatest
    rw [← otherLatest]
    exact stores.syncSteps_trapped valid client isLatest notAhead binding trapped synced

end LedgerStore

/-!
## A ledger with an epoch for each transaction
-/

namespace SteadyLedger

/-- The hash of a transaction info. -/
def leaf (index : Nat) : HashValue := .atom (index + 2)

variable (epoch : Nat)

/-- The same single validator in each epoch. -/
def validators : EpochState where
  epoch := epoch
  verifier :=
    { addressToValidatorInfo := OrderedMap.empty.insert 0 ⟨⟨7⟩, 1⟩
      quorumVotingPower := 1
      totalVotingPower := 1 }

/-- The ledger info of an epoch, which ends it. -/
def info : LedgerInfo where
  commitInfo :=
    { BlockInfo.empty with
      epoch := epoch
      version := epoch
      executedStateId := rootHash symbolic.transactionAccumulator leaf (epoch + 1)
      nextEpochState := some (validators (epoch + 1)) }
  consensusDataHash := .zero

/-- The ledger info of an epoch, signed by the validator. -/
def signed : LedgerInfoWithSignatures where
  ledgerInfo := info epoch
  signatures := OrderedMap.empty.insert 0 (symbolic.sign ⟨7⟩ (.ledgerInfo (info epoch)))

/-- The batch with the transaction of an epoch. -/
def save : Ledger.Save where
  leaves := [leaf epoch]
  signed := some (signed epoch)

/-- The ledger of the first epochs. -/
def ledger (epochs : Nat) : Ledger where
  size := epochs
  ending := (range epochs).map signed
  current := none

theorem verify_signed :
    (Verifier.epochState (validators epoch)).verify symbolic (signed epoch) = .ok () := by
  have authentic : symbolic.batchVerify (.ledgerInfo (info epoch))
          [(⟨7⟩, symbolic.sign ⟨7⟩ (.ledgerInfo (info epoch)))] =
        true :=
    all_eq_true.mpr fun pair member => by
      rw [mem_singleton] at member
      rw [member]
      exact decide_eq_true rfl
  have known : (validators epoch).verifier.keysAndSignatures (signed epoch).signatures =
        [(⟨7⟩, symbolic.sign ⟨7⟩ (.ledgerInfo (info epoch)))] :=
    rfl
  have numbers :
      (validators epoch).verifier.checkNumOfSignatures (signed epoch).signatures = .ok () :=
    rfl
  have power :
      (validators epoch).verifier.checkVotingPower (signed epoch).signatures.keys = .ok () :=
    rfl
  have sameInfo : (signed epoch).ledgerInfo = info epoch := rfl
  have sameEpoch : (validators epoch).epoch = (info epoch).epoch := rfl
  rw [Verifier.verify, sameInfo, ensure, if_pos sameEpoch,
    ok_bind, LedgerInfoWithSignatures.verifySignatures, sameInfo,
    ValidatorVerifier.batchVerifyAggregatedSignatures, numbers, known]
  rw [power, if_pos authentic]
  rfl

theorem extend_ledger (epochs : Nat) :
    (ledger epochs).extend (save epochs) = ledger (epochs + 1) := by
  have ends : (signed epochs).ledgerInfo.endsEpoch = true := rfl
  rw [extend, save]
  dsimp only
  rw [add, if_pos ends, ledger, ledger, range_succ, map_append]
  rfl

variable {epochs : Nat}

theorem admits_save (small : epochs + 1 < 2 ^ 63) :
    (ledger epochs).Admits symbolic leaf (save epochs) where
  notEmpty := .inl rfl
  leaves := by
    intro offset inside
    have first : offset = 0 := lt_one_iff.mp inside
    subst first
    rfl
  small := small
  certified := by
    intro other isSigned
    obtain rfl : signed epochs = other := some.inj isSigned
    refine ⟨rfl, rfl, ?_, ?_, fun _ => rfl, ?_⟩
    · rw [ledger, length_map, length_range]
      rfl
    · intro state installs
      obtain rfl : validators (epochs + 1) = state := some.inj installs
      rfl
    · intro last isLast
      rw [ledger, getLast?_map] at isLast
      cases epochs with
      | zero => cases isLast
      | succ epoch =>
        rw [range_succ, getLast?_concat, map_some, some.injEq] at isLast
        rw [← isLast]
        exact ⟨⟨validators (epoch + 1), rfl, verify_signed (epoch + 1)⟩, lt_succ_self epoch⟩

/-- The batches of the first epochs are certified one after the other. -/
theorem admitsAll (count : Nat) (small : epochs + count < 2 ^ 63) :
    (ledger epochs).AdmitsAll symbolic leaf ((range' epochs count).map save) ∧
      ((range' epochs count).map save).foldl extend (ledger epochs) = ledger (epochs + count) := by
  induction count generalizing epochs with
  | zero => exact ⟨trivial, rfl⟩
  | succ count ih =>
    obtain ⟨admits, folded⟩ := ih (by omega : epochs + 1 + count < 2 ^ 63)
    rw [range'_succ, map_cons, Ledger.AdmitsAll, foldl_cons, extend_ledger, folded]
    refine ⟨⟨admits_save (by omega), admits⟩, ?_⟩
    rw [add_right_comm, add_assoc]

/-- The client that knows the first epoch change. -/
def client : TrustedState :=
  .epochState (newAny symbolic (info 0)) (validators 1)
    ⟨summary symbolic.transactionAccumulator leaf 1⟩

theorem client_ledger (notEmpty : 0 < epochs) :
    (ledger epochs).Client symbolic leaf client none 0 := by
  obtain ⟨last, rfl⟩ : ∃ last, epochs = last + 1 := ⟨epochs - 1, by omega⟩
  have isLatest : (ledger (last + 1)).latest = some (signed last) := by
    rw [Ledger.latest, ledger, range_succ, map_append, toList_none, append_nil]
    exact getLast?_concat
  have inForce : (ledger (last + 1)).InForce 0 0 (validators 1) := by
    refine ⟨signed 0, ?_, le_rfl, ?_, rfl⟩
    · rw [ledger, getElem?_map, getElem?_range (by omega)]
      rfl
    · intro next found
      rw [ledger, getElem?_map] at found
      obtain ⟨epoch, listed, rfl⟩ := map_eq_some_iff.mp found
      obtain ⟨-, rfl⟩ := List.getElem?_eq_some_iff.mp listed
      rw [getElem_range]
      exact one_pos
  have agrees : (newAny symbolic (info 0)).version = (signed last).ledgerInfo.version →
        newAny symbolic (info 0) = newAny symbolic (signed last).ledgerInfo := by
    intro same
    have sameEpoch : 0 = last := same
    rw [← sameEpoch]
    rfl
  exact .epochState isLatest (zero_le _) agrees inForce

theorem binding (size : Nat) : Ledger.Binding symbolic leaf size :=
  ⟨fun value => ∃ number, value = .atom (number + 2),
    TransactionAccumulatorSummary.pairHasher_collisionFree, fun index _ => ⟨index, rfl⟩⟩

theorem admitsAll_empty (small : epochs < 2 ^ 63) :
    empty.AdmitsAll symbolic leaf ((range' 0 epochs).map save) ∧
      ((range' 0 epochs).map save).foldl extend empty = ledger epochs := by
  have start : ledger 0 = empty := rfl
  have both := admitsAll epochs (by omega : 0 + epochs < 2 ^ 63)
  rw [start, zero_add] at both
  exact both

/-- A client one epoch behind reaches the latest ledger info. -/
theorem client_served :
    ∃ store, LedgerStore.empty.saveAll symbolic.transactionAccumulator 0 ((range' 0 2).map save) =
      .ok store ∧
      ∃ latest rounds final,
        (ledger 2).latest = some latest ∧ store.syncSteps symbolic none rounds client = .ok final ∧
          final.waypoint = newAny symbolic latest.ledgerInfo := by
  obtain ⟨admits, folded⟩ := admitsAll_empty (by decide : 2 < 2 ^ 63)
  obtain ⟨store, saved, serves⟩ := LedgerStore.stateProofs_serve symbolic leaf _ admits
  refine ⟨store, saved, ?_⟩
  refine (serves client none 0 (client_ledger (by decide))).synced ?_
  rintro ⟨latest, rounds, isLatest, -, epoch⟩
  obtain rfl : signed 1 = latest := some.inj isLatest
  have small : (signed 1).ledgerInfo.epoch = 1 := rfl
  have limit : maxNumEpochEndingLedgerInfo = 100 := rfl
  omega

theorem pageStops (valid : (ledger epochs).WellFormed symbolic leaf)
    (length : epochs = maxNumEpochEndingLedgerInfo + 1) : (ledger epochs).PageStops 0 := by
  have first : (ledger epochs).ending[0]? = some (signed 0) := by
    rw [ledger, getElem?_map, getElem?_range (by omega)]
    rfl
  have known : (ledger epochs).epochOf 0 = 0 := valid.epochOf_ending first
  refine ⟨rfl, ?_⟩
  rw [known, zero_add, ← length, ledger, length_map, length_range]

/-- A client that is one page and one epoch change behind is refused. -/
theorem client_refused :
    let saves := (range' 0 101).map save
    empty.AdmitsAll symbolic leaf saves ∧
      (saves.foldl extend empty).Client symbolic leaf client none 0 ∧
      ∃ store stateProof,
        LedgerStore.empty.saveAll symbolic.transactionAccumulator 0 saves = .ok store ∧
        store.getStateProof 0 = .ok stateProof ∧
        ∀ change, client.verifyAndRatchet symbolic stateProof none ≠ .ok change := by
  dsimp only
  obtain ⟨epochs, length⟩ : ∃ epochs, epochs = 101 := ⟨101, rfl⟩
  rw [← length]
  obtain ⟨admits, folded⟩ := admitsAll_empty (by rw [length]; decide : epochs < 2 ^ 63)
  have isClient := client_ledger (by omega : 0 < epochs)
  obtain ⟨store, saved, stores, valid⟩ :=
    LedgerStore.stores_empty.saveAll wellFormed_empty admits
  rw [folded] at stores valid ⊢
  obtain ⟨latest, isLatest, notAhead⟩ := valid.exists_latest isClient
  obtain ⟨target, reaches⟩ := valid.exists_reaches isLatest notAhead
  obtain ⟨stateProof, answered, refused⟩ :=
    stores.refuses valid isClient isLatest notAhead reaches (binding _)
      (pageStops valid length)
  exact ⟨admits, isClient, store, stateProof, saved, answered, refused⟩

end SteadyLedger

end Diem
