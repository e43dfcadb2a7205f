import Diem.AccumulatorConsistency
import Diem.SymbolicCrypto
import Diem.TrustedState

namespace Diem

open Fallible (bind_eq_ok_iff check_eq_ok_iff ensure_eq_ok_iff)
open Waypoint (converter newAny)
open MerkleForest InMemoryAccumulator TransactionAccumulatorSummary List

/-!
# Light clients ratchet safely

A client applies whatever responses servers send it.  Every response it accepts moves
it along a chain of epoch changes, each verified by the validators that the one
before it installed, and extends its list of transactions.
-/

/--
Epoch changes that lead from one verifier to another: each is verified by what the
one before it installed, and installs the validators of the next epoch.
-/
inductive EpochChanges (crypto : Crypto) :
    Verifier → List LedgerInfoWithSignatures → Verifier → Prop where
  | nil {verifier : Verifier} : EpochChanges crypto verifier [] verifier
  | cons
      {verifier last : Verifier}
      {change : LedgerInfoWithSignatures}
      {rest : List LedgerInfoWithSignatures}
      {state : EpochState} :
      verifier.verify crypto change = .ok () →
      change.ledgerInfo.nextEpochState = some state →
      state.epoch = change.ledgerInfo.epoch + 1 →
      EpochChanges crypto (.epochState state) rest last →
      EpochChanges crypto verifier (change :: rest) last

variable (crypto : Crypto)

/-- The ledger info is verified at the end of a chain of epoch changes. -/
def Endorsed (verifier : Verifier) (signed : LedgerInfoWithSignatures) : Prop :=
  ∃ changes last, EpochChanges crypto verifier changes last ∧ last.verify crypto signed = .ok ()

variable (isLeaf : HashValue → Prop)

/-- The summary is the one of the given transactions. -/
def Summarizes (summary : TransactionAccumulatorSummary) (leaves : List HashValue) : Prop :=
  (∀ leaf ∈ leaves, isLeaf leaf) ∧
    fromLeaves crypto.transactionAccumulator leaves = .ok summary.accumulator

/-- The ledger info commits to some list of transactions. -/
def CommitsToTransactions (info : LedgerInfo) : Prop :=
  ∃ leaves summary, Summarizes crypto isLeaf summary leaves ∧ leaves.length = info.version + 1 ∧
    info.transactionAccumulatorHash = summary.rootHash

/--
What is assumed of the hash functions, and of the ledger infos that the initial
waypoint names or that a quorum signs.
-/
structure HonestLedger (initial : TrustedState) : Prop where
  accumulators : CollisionFree crypto.transactionAccumulator isLeaf
  waypoints : Function.Injective crypto.hashWaypoint
  nextEpoch : ∀ {signed state}, Endorsed crypto initial.verifier signed →
    signed.ledgerInfo.nextEpochState = some state →
    state.epoch = signed.ledgerInfo.epoch + 1
  commits : ∀ {signed}, Endorsed crypto initial.verifier signed →
    CommitsToTransactions crypto isLeaf signed.ledgerInfo

namespace EpochChanges

variable {crypto : Crypto} {first second : Verifier}
  {changes : List LedgerInfoWithSignatures}

theorem append {third : Verifier} {more : List LedgerInfoWithSignatures}
    (before : EpochChanges crypto first changes second)
    (after : EpochChanges crypto second more third) :
    EpochChanges crypto first (changes ++ more) third := by
  induction before with
  | nil => exact after
  | cons verified installs successor _ ih => exact .cons verified installs successor (ih after)

theorem endorsed {signed : LedgerInfoWithSignatures}
    (chain : EpochChanges crypto first changes second) (trusted : Endorsed crypto second signed) :
    Endorsed crypto first signed := by
  obtain ⟨more, last, after, verified⟩ := trusted
  exact ⟨changes ++ more, last, chain.append after, verified⟩

/-- The epoch grows by one with every change. -/
theorem epoch_eq {first : EpochState}
    (chain : EpochChanges crypto (.epochState first) changes second) :
    ∃ state, second = .epochState state ∧ state.epoch = first.epoch + changes.length := by
  generalize start : Verifier.epochState first = verifier at chain
  induction chain generalizing first with
  | nil => exact ⟨first, start.symm, rfl⟩
  | cons verified installs successor _ ih =>
    subst start
    obtain ⟨state, rfl, epochs⟩ := ih rfl
    simp only [Verifier.verify, check_eq_ok_iff, ensure_eq_ok_iff] at verified
    refine ⟨state, rfl, ?_⟩
    rw [length_cons]
    omega

/-- The last change is endorsed, and installed the validators that the chain leads to. -/
theorem getLast {change : LedgerInfoWithSignatures}
    (chain : EpochChanges crypto first changes second) (last : changes.getLast? = some change) :
    Endorsed crypto first change ∧
      ∃ state, change.ledgerInfo.nextEpochState = some state ∧ second = .epochState state := by
  induction chain with
  | nil => cases last
  | @cons _ _ head rest state verified installs successor after ih =>
    cases rest with
    | nil =>
      cases after
      rw [getLast?_singleton, Option.some.injEq] at last
      subst last
      exact ⟨⟨[], _, .nil, verified⟩, state, installs, rfl⟩
    | cons next rest =>
      have step : EpochChanges crypto _ [head] (.epochState state) :=
        .cons verified installs successor .nil
      obtain ⟨trusted, installed⟩ := ih last
      exact ⟨step.endorsed trusted, installed⟩

end EpochChanges

namespace EpochChangeProof

variable {crypto : Crypto} {verifier : Verifier}
  (nextEpoch : ∀ {signed state}, Endorsed crypto verifier signed →
    signed.ledgerInfo.nextEpochState = some state →
    state.epoch = signed.ledgerInfo.epoch + 1)

include nextEpoch

/-- What the loop of `verify` checks is a chain of epoch changes. -/
theorem verifyChain_epochChanges {changes : List LedgerInfoWithSignatures}
    (verified : verifyChain crypto verifier changes = .ok ()) :
    ∃ last, EpochChanges crypto verifier changes last := by
  induction changes generalizing verifier with
  | nil => exact ⟨verifier, .nil⟩
  | cons change rest ih =>
    rw [verifyChain, check_eq_ok_iff] at verified
    obtain ⟨accepted, verified⟩ := verified
    cases installs : change.ledgerInfo.nextEpochState with
    | none =>
      rw [installs] at verified
      cases verified
    | some state =>
      rw [installs] at verified
      have successor : state.epoch = change.ledgerInfo.epoch + 1 :=
        nextEpoch ⟨[], verifier, .nil, accepted⟩ installs
      have step : EpochChanges crypto verifier [change] (.epochState state) :=
        .cons accepted installs successor .nil
      obtain ⟨last, chain⟩ := ih (fun trusted => nextEpoch (step.endorsed trusted)) verified
      exact ⟨last, .cons accepted installs successor chain⟩

/--
An accepted proof holds a chain of epoch changes that starts at the verifier, after
a part that is stale, and returns the last change.
-/
theorem verify_epochChanges {proof : EpochChangeProof} {change : LedgerInfoWithSignatures}
    (accepted : proof.verify crypto verifier = .ok change) :
    verifier.isLedgerInfoStale change.ledgerInfo = false ∧
      ∃ changes last, changes <:+ proof.ledgerInfoWithSigs ∧ changes.getLast? = some change ∧
        EpochChanges crypto verifier changes last := by
  have lookup := verify_ok accepted
  simp only [verify, lookup, check_eq_ok_iff, ensure_eq_ok_iff, Bool.not_eq_true'] at accepted
  obtain ⟨fresh, verified, -⟩ := accepted
  obtain ⟨last, chain⟩ := verifyChain_epochChanges nextEpoch verified
  refine ⟨fresh, _, last, dropWhile_suffix _, ?_, chain⟩
  obtain ⟨front, shape⟩ := getLast?_eq_some_iff.mp lookup
  rw [shape, dropWhile_append]
  split
  · simp [fresh]
  · exact getLast?_concat

end EpochChangeProof

/-- A response of a server, with the accumulator a client has obtained for it. -/
structure Response where
  stateProof : StateProof
  initialAccumulator : Option TransactionAccumulatorSummary
  deriving DecidableEq

namespace TrustedState

/-- Apply a response: an accepted change replaces the state. -/
def ratchet (state : TrustedState) (response : Response) : TrustedState :=
  match state.verifyAndRatchet crypto response.stateProof
      response.initialAccumulator with
  | .ok change => change.newState.getD state
  | .error _ => state

/-- Apply responses one after the other. -/
def run (initial : TrustedState) (responses : List Response) : TrustedState :=
  responses.foldl (ratchet crypto) initial

/-- The epoch of the trusted validators. -/
def epoch : TrustedState → Option Nat
  | .epochWaypoint _ => none
  | .epochState _ current _ => some current.epoch

/--
The accumulator has a leaf for every version and the root hash of the ledger info
that the waypoint commits to.
-/
structure Anchored (waypoint : Waypoint) (summary : TransactionAccumulatorSummary) : Prop where
  leafCount : summary.accumulator.numLeaves = waypoint.version + 1
  transactions :
    ∃ leaves, Summarizes crypto isLeaf summary leaves ∧ leaves.length = waypoint.version + 1
  named : ∃ info, waypoint.verify crypto info = .ok ()
  rootHash : ∀ info, waypoint.verify crypto info = .ok () →
    info.transactionAccumulatorHash = summary.rootHash

/-- What a client trusts holds together. -/
def WellAnchored (state : TrustedState) : Prop :=
  ∀ summary, state.accumulatorSummary = some summary → Anchored crypto isLeaf state.waypoint summary

/--
The validators of the state follow from the initial ones by a chain of epoch changes.
The ledger info of the state is the last of them, or these validators verified it.
-/
def Verified (initial state : TrustedState) : Prop :=
  ∃ changes, EpochChanges crypto initial.verifier changes state.verifier ∧ (state = initial ∨
    ∃ signed, state.waypoint = Waypoint.newAny crypto signed.ledgerInfo ∧
      (changes.getLast? = some signed ∨ state.verifier.verify crypto signed = .ok ()))

/-- The later state is ahead of the earlier one and extends its transactions. -/
structure Precedes (earlier later : TrustedState) : Prop where
  version : earlier.version ≤ later.version
  epoch : ∀ first, earlier.epoch = some first → ∃ second, later.epoch = some second ∧ first ≤ second
  transactions : ∀ old oldLeaves, earlier.accumulatorSummary = some old →
    Summarizes crypto isLeaf old oldLeaves →
    ∃ new newLeaves, later.accumulatorSummary = some new ∧ Summarizes crypto isLeaf new newLeaves ∧
      oldLeaves <+: newLeaves

/-- The epoch grows with a change of the epoch, and only with one. -/
def EpochFollows (state : TrustedState) : TrustedStateChange → Prop
  | .version newState => newState.epoch = state.epoch
  | .epoch newState _ =>
    ∃ second, newState.epoch = some second ∧ ∀ first, state.epoch = some first → first < second
  | .noChange => True

section Steps

variable {crypto isLeaf} {initial state : TrustedState}

variable {proof : StateProof} {initialAccumulator : Option TransactionAccumulatorSummary}
  {change : TrustedStateChange}

/-- The ways in which a state proof is accepted. -/
theorem verifyAndRatchet_cases
    (accepted : state.verifyAndRatchet crypto proof initialAccumulator = .ok change) :
    state.version ≤ proof.latestLiWSigs.ledgerInfo.version ∧
    (change = .noChange ∨
    (∃ waypoint current accumulator extended, state = .epochState waypoint current accumulator ∧
      (Verifier.epochState current).verify crypto proof.latestLiWSigs = .ok () ∧
      accumulator.tryExtendWithProof crypto.transactionAccumulator
          proof.consistencyProof proof.latestLiWSigs.ledgerInfo =
        .ok extended ∧
      change =
        .version (.epochState (newAny crypto proof.latestLiWSigs.ledgerInfo) current extended)) ∨
    (∃ accumulator epochChangeLi current signed extended,
      state.currAccumulator proof.epochChanges initialAccumulator = .ok accumulator ∧
      proof.epochChanges.verify crypto state.verifier = .ok epochChangeLi ∧
      epochChangeLi.ledgerInfo.nextEpochState = some current ∧
      verifiedLedgerInfo crypto current epochChangeLi proof.latestLiWSigs proof.epochChanges.more =
        .ok signed ∧
      accumulator.tryExtendWithProof crypto.transactionAccumulator
          proof.consistencyProof signed.ledgerInfo =
        .ok extended ∧
      change = .epoch (.epochState (newAny crypto signed.ledgerInfo) current extended)
        epochChangeLi)) := by
  rw [verifyAndRatchet, verifyAndRatchetInner, check_eq_ok_iff, ensure_eq_ok_iff,
    bind_eq_ok_iff] at accepted
  obtain ⟨fresh, accumulator, current, accepted⟩ := accepted
  refine ⟨fresh, ?_⟩
  split at accepted
  · simp only [ratchetEpoch, bind_eq_ok_iff, Fallible.okOr_eq_ok_iff] at accepted
    obtain ⟨epochChangeLi, verified, validators, installs, signed, chosen,
      extended, extension, returned⟩ := accepted
    cases returned
    exact .inr (.inr ⟨accumulator, epochChangeLi, validators, signed,
      extended, current, verified, installs, chosen, extension, rfl⟩)
  · cases state with
    | epochWaypoint waypoint => cases accepted
    | epochState waypoint validators trusted =>
      cases current
      simp only [ratchetVersion] at accepted
      split at accepted
      · rw [check_eq_ok_iff] at accepted
        cases accepted.2
        exact .inl rfl
      · rw [check_eq_ok_iff, bind_eq_ok_iff] at accepted
        obtain ⟨verified, extended, extension, returned⟩ := accepted
        cases returned
        exact .inr (.inl ⟨waypoint, validators, accumulator, extended, rfl,
          verified, extension, rfl⟩)

variable {current : EpochState} {signed : LedgerInfoWithSignatures}

/-- The ledger info that is chosen is the last change or is verified. -/
theorem verifiedLedgerInfo_cases {epochChangeLi latestLi : LedgerInfoWithSignatures} {more : Bool}
    (chosen : verifiedLedgerInfo crypto current epochChangeLi latestLi more = .ok signed) :
    signed = epochChangeLi ∨
      signed = latestLi ∧ (Verifier.epochState current).verify crypto latestLi = .ok () := by
  rw [verifiedLedgerInfo] at chosen
  split at chosen
  · rename_i same
    cases chosen
    exact .inl same.symm
  · split at chosen
    · rw [check_eq_ok_iff] at chosen
      obtain ⟨verified, returned⟩ := chosen
      cases returned
      exact .inr ⟨rfl, verified⟩
    · split at chosen
      · cases chosen
        exact .inl rfl
      · cases chosen

theorem newAny_verify_iff (injective : Function.Injective crypto.hashWaypoint)
    {info other : LedgerInfo} :
    (newAny crypto info).verify crypto other = .ok () ↔ converter other = converter info := by
  rw [Waypoint.verify, check_eq_ok_iff, ensure_eq_ok_iff, ensure_eq_ok_iff]
  constructor
  · rintro ⟨-, sameHash⟩
    exact injective sameHash
  · intro same
    exact ⟨congrArg Ledger2WaypointConverter.version same, congrArg crypto.hashWaypoint same⟩

variable {extended : TransactionAccumulatorSummary}
  {summary : TransactionAccumulatorSummary}

theorem anchored_of_extended (honest : HonestLedger crypto isLeaf initial)
    {proof : AccumulatorConsistencyProof} (trusted : Endorsed crypto initial.verifier signed)
    (accepted : summary.tryExtendWithProof crypto.transactionAccumulator proof
      signed.ledgerInfo = .ok extended) :
    Anchored crypto isLeaf (newAny crypto signed.ledgerInfo) extended ∧
      ∀ oldLeaves, Summarizes crypto isLeaf summary oldLeaves →
        ∃ newLeaves, Summarizes crypto isLeaf extended newLeaves ∧ oldLeaves <+: newLeaves := by
  obtain ⟨leaves, target, ⟨areLeaves, built⟩, length, root⟩ := honest.commits trusted
  obtain ⟨accumulators, count, -⟩ :=
    tryExtendWithProof_target honest.accumulators areLeaves built root length accepted
  have same : extended = target := by
    cases extended
    cases target
    exact congrArg _ accumulators
  subst same
  refine ⟨⟨count, ⟨leaves, ⟨areLeaves, built⟩, length⟩, ⟨signed.ledgerInfo, ?_⟩, ?_⟩, ?_⟩
  · exact (newAny_verify_iff honest.waypoints).mpr rfl
  · intro info named
    have sameFields := (newAny_verify_iff honest.waypoints).mp named
    have sameRoot : info.transactionAccumulatorHash =
          signed.ledgerInfo.transactionAccumulatorHash :=
      congrArg Ledger2WaypointConverter.rootHash sameFields
    exact sameRoot.trans root
  · rintro oldLeaves ⟨oldAreLeaves, oldBuilt⟩
    refine ⟨leaves, ⟨areLeaves, built⟩, ?_⟩
    exact
      (tryExtendWithProof_sound honest.accumulators areLeaves built root length accepted
        oldAreLeaves oldBuilt rfl).1

theorem Anchored.version_eq {waypoint : Waypoint}
    (anchored : Anchored crypto isLeaf waypoint summary) : summary.version = waypoint.version := by
  rw [TransactionAccumulatorSummary.version, InMemoryAccumulator.version, anchored.leafCount]
  rfl

variable (crypto isLeaf initial state) in
/-- Everything that holds of the state along a run. -/
structure Safe : Prop where
  anchored : state.WellAnchored crypto isLeaf
  verified : Verified crypto initial state

section

variable (honest : HonestLedger crypto isLeaf initial)
include honest

variable {accumulator : TransactionAccumulatorSummary}

/-- A summary extended to a ledger info that the validators endorse makes the next state. -/
theorem safe_of_extended {changes : List LedgerInfoWithSignatures}
    {proof : AccumulatorConsistencyProof}
    (chain : EpochChanges crypto initial.verifier changes (.epochState current))
    (source :
      changes.getLast? = some signed ∨ (Verifier.epochState current).verify crypto signed = .ok ())
    (extension : accumulator.tryExtendWithProof crypto.transactionAccumulator proof
      signed.ledgerInfo = .ok extended)
    (held : ∀ old, state.accumulatorSummary = some old → old = accumulator)
    (versions : state.version ≤ signed.ledgerInfo.version)
    (epochs : ∀ first, state.epoch = some first → first ≤ current.epoch) :
    Safe crypto isLeaf initial (.epochState (newAny crypto signed.ledgerInfo) current extended) ∧
      Precedes crypto isLeaf state
        (.epochState (newAny crypto signed.ledgerInfo) current extended) := by
  have trusted : Endorsed crypto initial.verifier signed := by
    rcases source with isLast | verified
    · exact (chain.getLast isLast).1
    · exact ⟨changes, _, chain, verified⟩
  obtain ⟨anchored, prefixes⟩ := anchored_of_extended honest trusted extension
  refine ⟨⟨?_, changes, chain, .inr ⟨signed, rfl, source⟩⟩, versions, ?_, ?_⟩
  · rintro summary ⟨⟩
    exact anchored
  · intro first isFirst
    exact ⟨current.epoch, rfl, epochs first isFirst⟩
  · intro old oldLeaves isOld summarizes
    obtain rfl := held old isOld
    obtain ⟨newLeaves, newSummarizes, starts⟩ := prefixes oldLeaves summarizes
    exact ⟨extended, newLeaves, rfl, newSummarizes, starts⟩

theorem Safe.epoch_step (safe : Safe crypto isLeaf initial state)
    {epochChangeLi : LedgerInfoWithSignatures}
    (fresh : state.version ≤ proof.latestLiWSigs.ledgerInfo.version)
    (start : state.currAccumulator proof.epochChanges initialAccumulator = .ok accumulator)
    (accepted : proof.epochChanges.verify crypto state.verifier = .ok epochChangeLi)
    (installs : epochChangeLi.ledgerInfo.nextEpochState = some current)
    (chosen :
      verifiedLedgerInfo crypto current epochChangeLi proof.latestLiWSigs proof.epochChanges.more =
        .ok signed)
    (extension : accumulator.tryExtendWithProof crypto.transactionAccumulator
        proof.consistencyProof signed.ledgerInfo =
      .ok extended) :
    (Safe crypto isLeaf initial (.epochState (newAny crypto signed.ledgerInfo) current extended) ∧
      Precedes crypto isLeaf state
        (.epochState (newAny crypto signed.ledgerInfo) current extended)) ∧
      ∀ first, state.epoch = some first → first < current.epoch := by
  obtain ⟨changes, chain, -⟩ := safe.verified
  obtain ⟨notStale, more, last, -, lastChange, moreChain⟩ := EpochChangeProof.verify_epochChanges
    (fun trusted => honest.nextEpoch (chain.endorsed trusted)) accepted
  obtain ⟨installed, installs', rfl⟩ := (moreChain.getLast lastChange).2
  obtain rfl : installed = current := by
    rw [installs', Option.some.injEq] at installs
    exact installs
  have whole := chain.append moreChain
  have wholeLast : (changes ++ more).getLast? = some epochChangeLi := by
    rw [getLast?_append, lastChange]
    rfl
  have source : (changes ++ more).getLast? = some signed ∨
        (Verifier.epochState installed).verify crypto signed = .ok () := by
    rcases verifiedLedgerInfo_cases chosen with rfl | ⟨rfl, verified⟩
    · exact .inl wholeLast
    · exact .inr verified
  have growth : ∀ first, state.epoch = some first → first < installed.epoch := by
    intro first currentEpoch
    cases state with
    | epochWaypoint waypoint => cases currentEpoch
    | epochState waypoint validators trustedSummary =>
      cases currentEpoch
      obtain ⟨_, same, epochs⟩ := moreChain.epoch_eq
      cases same
      have nonempty : more ≠ [] := by
        rintro rfl
        cases lastChange
      have positive := length_pos_iff.mpr nonempty
      omega
  have versions : state.version ≤ signed.ledgerInfo.version := by
    rcases verifiedLedgerInfo_cases chosen with rfl | ⟨rfl, -⟩
    · cases state with
      | epochWaypoint waypoint =>
        have behind : ¬ signed.ledgerInfo.version < waypoint.version := by
          simpa [verifier, Verifier.isLedgerInfoStale] using notStale
        exact Nat.le_of_not_lt behind
      | epochState waypoint validators trustedSummary =>
        cases start
        have sameVersion := (safe.anchored _ rfl).version_eq
        have newer := (tryExtendWithProof_eq_ok extension).1
        rw [sameVersion] at newer
        exact newer
    · exact fresh
  have held : ∀ old, state.accumulatorSummary = some old → old = accumulator := by
    intro old isOld
    cases state with
    | epochWaypoint waypoint => cases isOld
    | epochState waypoint validators trustedSummary =>
      cases isOld
      cases start
      rfl
  exact ⟨safe_of_extended honest whole source extension held versions
    (fun first same => (growth first same).le), growth⟩

/-- What an accepted response does in a safe state. -/
theorem Safe.step (safe : Safe crypto isLeaf initial state)
    (accepted : state.verifyAndRatchet crypto proof initialAccumulator = .ok change) :
    EpochFollows state change ∧ ∀ newState, change.newState = some newState →
      Safe crypto isLeaf initial newState ∧ Precedes crypto isLeaf state newState := by
  obtain ⟨fresh, unchanged | ⟨waypoint, current, accumulator, extended, rfl,
      verified, extension, rfl⟩ | ⟨accumulator, epochChangeLi, current,
      signed, extended, start, verified, installs, chosen, extension, rfl⟩⟩ :=
    verifyAndRatchet_cases accepted
  · subst unchanged
    refine ⟨trivial, ?_⟩
    rintro newState ⟨⟩
  · refine ⟨rfl, ?_⟩
    rintro newState ⟨⟩
    obtain ⟨changes, chain, -⟩ := safe.verified
    exact safe_of_extended honest chain (.inr verified) extension
      (fun _ held => (Option.some.inj held).symm) fresh
      (fun _ same => (Option.some.inj same).ge)
  · obtain ⟨moved, growth⟩ := safe.epoch_step honest fresh start verified installs chosen extension
    refine ⟨⟨current.epoch, rfl, growth⟩, ?_⟩
    rintro newState ⟨⟩
    exact moved

end

theorem Precedes.refl (state : TrustedState) : Precedes crypto isLeaf state state where
  version := le_rfl
  epoch first same := ⟨first, same, le_rfl⟩
  transactions old oldLeaves held summarizes := ⟨old, oldLeaves, held, summarizes, prefix_rfl⟩

theorem Precedes.trans {first second third : TrustedState}
    (before : Precedes crypto isLeaf first second) (after : Precedes crypto isLeaf second third) :
    Precedes crypto isLeaf first third where
  version := before.version.trans after.version
  epoch firstEpoch same := by
    obtain ⟨secondEpoch, same, grows⟩ := before.epoch firstEpoch same
    obtain ⟨thirdEpoch, same, growsMore⟩ := after.epoch secondEpoch same
    exact ⟨thirdEpoch, same, grows.trans growsMore⟩
  transactions old oldLeaves held summarizes := by
    obtain ⟨middle, middleLeaves, held, summarizes, starts⟩ :=
      before.transactions old oldLeaves held summarizes
    obtain ⟨new, newLeaves, held, summarizes, startsMore⟩ :=
      after.transactions middle middleLeaves held summarizes
    exact ⟨new, newLeaves, held, summarizes, starts.trans startsMore⟩

section

variable (honest : HonestLedger crypto isLeaf initial) (safe : Safe crypto isLeaf initial state)
include honest safe

theorem Safe.ratchet (response : Response) :
    Safe crypto isLeaf initial (state.ratchet crypto response) ∧
      Precedes crypto isLeaf state (state.ratchet crypto response) := by
  cases result : state.verifyAndRatchet crypto response.stateProof response.initialAccumulator with
  | error failure =>
    simp only [TrustedState.ratchet, result]
    exact ⟨safe, .refl state⟩
  | ok change =>
    simp only [TrustedState.ratchet, result]
    cases new : change.newState with
    | none => exact ⟨safe, .refl state⟩
    | some newState => exact (safe.step honest result).2 newState new

/-- A run keeps every state safe and ahead of the ones before it. -/
theorem Safe.run (responses : List Response) :
    Safe crypto isLeaf initial (state.run crypto responses) ∧
      Precedes crypto isLeaf state (state.run crypto responses) := by
  induction responses generalizing state with
  | nil => exact ⟨safe, .refl state⟩
  | cons response responses ih =>
    obtain ⟨nextSafe, next⟩ := safe.ratchet honest response
    obtain ⟨lastSafe, last⟩ := ih nextSafe
    exact ⟨lastSafe, next.trans last⟩

end

/--
Whatever responses a client gets: the version and the epoch never decrease, and the
epoch grows exactly when a change of the epoch is reported.  In every state the
accumulator has a leaf for each version and the root hash of the ledger info that
the waypoint commits to.  A chain of epoch changes verified that ledger info, each
by the validators of the epoch before it or by the initial waypoint, and the
transactions of a state are a prefix of those of every later one.
-/
theorem ratcheting_safe
    (crypto : Crypto)
    (isLeaf : HashValue → Prop)
    (initial : TrustedState)
    (honest : HonestLedger crypto isLeaf initial)
    (anchored : initial.WellAnchored crypto isLeaf)
    (past future : List Response) :
    let earlier := initial.run crypto past
    let later := earlier.run crypto future
    Precedes crypto isLeaf earlier later ∧ later.WellAnchored crypto isLeaf ∧
      Verified crypto initial later ∧
      ∀ (response : Response) (change : TrustedStateChange),
        later.verifyAndRatchet crypto response.stateProof response.initialAccumulator = .ok change →
        EpochFollows later change := by
  have start : Safe crypto isLeaf initial initial := ⟨anchored, [], .nil, .inl rfl⟩
  have started := (start.run honest past).1
  obtain ⟨safe, precedes⟩ := started.run honest future
  refine ⟨precedes, safe.anchored, safe.verified, ?_⟩
  intro response change accepted
  exact (safe.step honest accepted).1

end Steps

def secondValidators : EpochState where
  epoch := 1
  verifier :=
    { addressToValidatorInfo := OrderedMap.empty.insert 0 ⟨⟨7⟩, 1⟩
      quorumVotingPower := 1
      totalVotingPower := 1 }

/-- The ledger info that ends the first epoch, after one transaction. -/
def boundaryInfo : LedgerInfo where
  commitInfo :=
    { BlockInfo.empty with
      executedStateId := .atom 2
      nextEpochState := some secondValidators }
  consensusDataHash := HashValue.zero

/-- A ledger info of the second epoch, after two transactions. -/
def secondInfo : LedgerInfo where
  commitInfo :=
    { BlockInfo.empty with
      epoch := 1
      executedStateId := .pair (.atom 2) (.atom 3)
      version := 1 }
  consensusDataHash := HashValue.zero

/-- A scheme in which the validators only ever sign one ledger info. -/
def signingOnly (info : LedgerInfo) : Crypto :=
  { Crypto.symbolic with
    verify := fun _ message _ => message = .ledgerInfo info
    batchVerify := fun message _ => message = .ledgerInfo info }

variable {signed : LedgerInfoWithSignatures}

/-- What the validators of the second epoch accept was signed. -/
theorem signingOnly_verify {info : LedgerInfo}
    (verified : (Verifier.epochState secondValidators).verify (signingOnly info) signed = .ok ()) :
    signed.ledgerInfo = info := by
  simp only [Verifier.verify, check_eq_ok_iff, VerifyError.report_eq_ok_iff] at verified
  have sound : (signingOnly info).BatchSound := fun message pairs accepted pair member => accepted
  obtain ⟨power, signatures⟩ :=
    ValidatorVerifier.batchVerifyAggregatedSignatures_ok sound verified.2
  cases keys : signed.signatures.keys with
  | nil =>
    rw [keys] at power
    cases power
  | cons author rest =>
    have member : author ∈ signed.signatures.keys := by
      rw [keys]
      exact mem_cons_self
    obtain ⟨signature, lookup⟩ := OrderedMap.mem_keys_iff.mp member
    obtain ⟨publicKey, -, valid⟩ := signatures author signature lookup
    exact Message.ledgerInfo.inj (of_decide_eq_true valid)

/-- What the waypoint of the boundary endorses. -/
theorem endorsed_boundary
    (trusted :
      Endorsed (signingOnly secondInfo) (.waypoint (newAny (signingOnly secondInfo) boundaryInfo))
        signed) :
    converter signed.ledgerInfo = converter boundaryInfo ∨ signed.ledgerInfo = secondInfo := by
  have injective : Function.Injective (signingOnly secondInfo).hashWaypoint := HashTerm.injective
  obtain ⟨changes, last, chain, verified⟩ := trusted
  cases chain with
  | nil => exact .inl ((newAny_verify_iff injective).mp verified)
  | cons first installs _ chain =>
    have fields := (newAny_verify_iff injective).mp first
    have next := congrArg Ledger2WaypointConverter.nextEpochState fields
    obtain rfl : secondValidators = _ := Option.some.inj (next.symm.trans installs)
    cases chain with
    | nil => exact .inr (signingOnly_verify verified)
    | cons second installsMore _ _ =>
      -- the only ledger info that is signed ends no epoch
      rw [signingOnly_verify second] at installsMore
      cases installsMore

theorem boundary_honest :
    HonestLedger (signingOnly secondInfo) (fun value => ∃ number, value = .atom (number + 2))
      (fromEpochWaypoint (newAny (signingOnly secondInfo) boundaryInfo)) where
  accumulators := pairHasher_collisionFree
  waypoints := HashTerm.injective
  nextEpoch := by
    intro signed state trusted installs
    rcases endorsed_boundary trusted with fields | same
    · have next := congrArg Ledger2WaypointConverter.nextEpochState fields
      have epochs := congrArg Ledger2WaypointConverter.epoch fields
      obtain rfl : secondValidators = state := Option.some.inj (next.symm.trans installs)
      exact congrArg (· + 1) epochs.symm
    · rw [same] at installs
      cases installs
  commits := by
    intro signed trusted
    rcases endorsed_boundary trusted with fields | same
    · refine ⟨[.atom 2], oneLeafSummary, ⟨by simp, rfl⟩, ?_, ?_⟩
      · exact congrArg (· + 1) (congrArg Ledger2WaypointConverter.version fields).symm
      · exact congrArg Ledger2WaypointConverter.rootHash fields
    · rw [same]
      exact ⟨[.atom 2, .atom 3], ⟨⟨[.pair (.atom 2) (.atom 3)], 2, .pair (.atom 2) (.atom 3)⟩⟩,
        ⟨by simp, rfl⟩, rfl, rfl⟩

/-- A response that leads from the waypoint into the second epoch. -/
def secondResponse : Response where
  stateProof :=
    { latestLiWSigs := ⟨secondInfo, OrderedMap.empty.insert 0 ⟨.atom 0⟩⟩
      epochChanges := ⟨[⟨boundaryInfo, OrderedMap.empty⟩], false⟩
      consistencyProof := ⟨[.atom 3]⟩ }
  initialAccumulator := some oneLeafSummary

/-- A client goes from a waypoint to the second transaction. -/
theorem ratcheting_safe_second :
    let crypto := signingOnly secondInfo
    let waypoint := Waypoint.newAny crypto boundaryInfo
    (run crypto (fromEpochWaypoint waypoint) [secondResponse]).version = 1 ∧
    (run crypto (fromEpochWaypoint waypoint) [secondResponse]).epoch = some 1 ∧
    WellAnchored crypto (fun value => ∃ number, value = .atom (number + 2))
      (run crypto (fromEpochWaypoint waypoint) [secondResponse]) := by
  refine ⟨by decide, by decide, ?_⟩
  exact (ratcheting_safe _ _ _ boundary_honest (by rintro summary ⟨⟩) [secondResponse] []).2.1

end TrustedState

end Diem
