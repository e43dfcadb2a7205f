import Diem.TransactionPrologue
import Mathlib.Data.List.Perm.Subperm
import Mathlib.Data.List.Range

namespace Diem

open Fallible (bind_eq_ok_iff check_eq_ok_iff)
open Move (assert_eq_ok_iff assert_of borrowGlobal maxU64 ok_bind)
open List

/-!
# No replay

The transactions of one account in any order, between any changes that others make.  The
sequence numbers that were used and the state of the account are kept in step: without a
window the used ones are those below the counter, and a window shows exactly which of the
nonces from its left end on were used.
-/

section Replay

variable {Currency : Type}

/-- A window stays, with the same size, and moves to the right only. -/
def Crsn.Grows (before after : Option Crsn) : Prop :=
  ∀ window, before = some window →
    ∃ later, after = some later ∧ later.size = window.size ∧ window.minNonce ≤ later.minNonce

theorem Crsn.Grows.refl (crsn : Option Crsn) : Crsn.Grows crsn crsn :=
  fun window found => ⟨window, found, rfl, le_rfl⟩

theorem Crsn.Grows.trans {first second third : Option Crsn} (before : Crsn.Grows first second)
    (after : Crsn.Grows second third) : Crsn.Grows first third := by
  intro window found
  obtain ⟨middle, middleFound, middleSize, middleOrder⟩ := before window found
  obtain ⟨last, lastFound, lastSize, lastOrder⟩ := after middle middleFound
  exact ⟨last, lastFound, lastSize.trans middleSize, middleOrder.trans lastOrder⟩

variable {account other : AccountState Currency} {used : List Nat} {nonce : Nat}
  {state : SenderState Currency} {txn : UserTransaction Currency} {body : Body Currency}
  {sha3 : List UInt8 → List UInt8}

variable (account used) in
/-- The sequence numbers of an account in terms of the used ones. -/
structure AccountState.Tracks : Prop where
  nodup : used.Nodup
  count : used.length = account.sequenceNumber
  bounded : ∀ nonce ∈ used, nonce < Move.maxU64
  counter : account.crsn = none → ∀ nonce ∈ used, nonce < account.sequenceNumber
  window : ∀ crsn, account.crsn = some crsn → crsn.Settled used

variable (account used nonce) in
/-- A sequence number that the account can still use. -/
structure AccountState.Accepts : Prop where
  fresh : nonce ∉ used
  small : nonce < Move.maxU64
  next : account.crsn = none → nonce = account.sequenceNumber
  inside : ∀ crsn, account.crsn = some crsn → nonce < crsn.minNonce + crsn.size

theorem length_le_of_bounded (nodup : used.Nodup) {bound : Nat}
    (bounded : ∀ nonce ∈ used, nonce < bound) : used.length ≤ bound := by
  have subset : used ⊆ range bound := by
    intro nonce member
    exact mem_range.mpr (bounded nonce member)
  have length := (subperm_of_subset nodup subset).length_le
  rwa [length_range] at length

namespace AccountState

section

variable (tracks : account.Tracks used)
include tracks

theorem Tracks.sequenceNumber_le : account.sequenceNumber ≤ maxU64 := by
  rw [← tracks.count]
  exact length_le_of_bounded tracks.nodup tracks.bounded

theorem Tracks.bounded_cons (accepts : account.Accepts used nonce) :
    ∀ other ∈ nonce :: used, other < maxU64 := by
  intro other member
  rcases mem_cons.mp member with rfl | earlier
  · exact accepts.small
  · exact tracks.bounded other earlier

theorem Tracks.sequenceNumber_lt (accepts : account.Accepts used nonce) :
    account.sequenceNumber < maxU64 := by
  have count := length_le_of_bounded (nodup_cons.mpr ⟨accepts.fresh, tracks.nodup⟩)
    (tracks.bounded_cons accepts)
  rw [length_cons, tracks.count] at count
  omega

/-- What the check of the sequence number tells. -/
theorem Tracks.checkSequenceNumber (small : nonce < maxU64)
    (checked : Diem.checkSequenceNumber account nonce = .ok ()) : account.Accepts used nonce := by
  rw [Diem.checkSequenceNumber] at checked
  cases crsn : account.crsn with
  | none =>
    rw [crsn, if_neg (by decide)] at checked
    obtain ⟨-, checked⟩ := check_eq_ok_iff.mp checked
    rw [assert_eq_ok_iff] at checked
    refine ⟨fun member => ?_, small, fun _ => checked, ?_⟩
    · have below := tracks.counter crsn nonce member
      omega
    · intro other impossible
      rw [crsn] at impossible
      cases impossible
  | some window =>
    have settled := tracks.window window crsn
    rw [crsn, if_pos (by rfl), settled.check_eq] at checked
    have accepted := assert_eq_ok_iff.mp checked
    obtain ⟨-, inside, fresh⟩ := of_decide_eq_true accepted
    refine ⟨fresh, small, ?_, ?_⟩
    · intro impossible
      rw [crsn] at impossible
      cases impossible
    · intro other same
      rw [crsn] at same
      cases same
      exact inside

/-- The epilogue uses a sequence number that the account accepts. -/
theorem Tracks.recordSequenceNumber (accepts : account.Accepts used nonce) :
    ∃ crsn, Diem.recordSequenceNumber account nonce = .ok crsn ∧ ({ account with
        crsn := crsn
        sequenceNumber := account.sequenceNumber + 1 } :
      AccountState Currency).Tracks (nonce :: used) ∧
      Crsn.Grows account.crsn crsn := by
  have nodup : (nonce :: used).Nodup := nodup_cons.mpr ⟨accepts.fresh, tracks.nodup⟩
  have count : (nonce :: used).length = account.sequenceNumber + 1 := congrArg (· + 1) tracks.count
  have bounded := tracks.bounded_cons accepts
  rw [Diem.recordSequenceNumber]
  cases crsn : account.crsn with
  | none =>
    rw [if_neg (by decide), assert_of (accepts.next crsn).symm]
    refine ⟨none, rfl, ⟨nodup, count, bounded, ?_, nofun⟩, nofun⟩
    intro _ other member
    rcases mem_cons.mp member with rfl | earlier
    · exact Nat.lt_succ_of_le (accepts.next crsn).le
    · exact Nat.lt_succ_of_lt (tracks.counter crsn other earlier)
  | some window =>
    obtain ⟨recorded, done, settled, size, order, -⟩ :=
      (tracks.window window crsn).record accepts.fresh (accepts.inside window crsn) bounded
    rw [if_pos (by rfl), done]
    refine ⟨some recorded, rfl, ⟨nodup, count, bounded, nofun, ?_⟩, ?_⟩
    · rintro other ⟨⟩
      exact settled
    · rintro other ⟨⟩
      exact ⟨recorded, rfl, size, order⟩

/-- Only the sequence number and the window matter. -/
theorem Tracks.congr (sequenceNumber : other.sequenceNumber = account.sequenceNumber)
    (crsn : other.crsn = account.crsn) : other.Tracks used where
  nodup := tracks.nodup
  count := tracks.count.trans sequenceNumber.symm
  bounded := tracks.bounded
  counter := by
    rw [crsn, sequenceNumber]
    exact tracks.counter
  window := by
    rw [crsn]
    exact tracks.window

end

theorem Accepts.congr (accepts : account.Accepts used nonce)
    (sequenceNumber : other.sequenceNumber = account.sequenceNumber)
    (crsn : other.crsn = account.crsn) : other.Accepts used nonce where
  fresh := accepts.fresh
  small := accepts.small
  next := by
    rw [crsn, sequenceNumber]
    exact accepts.next
  inside := by
    rw [crsn]
    exact accepts.inside

variable (account used) in
/-- The account has used the numbers in the state, and its window has only grown. -/
def GoesOn (final : SenderState Currency) : Prop :=
  ∃ after, final.account = some after ∧ after.Tracks used ∧ Crsn.Grows account.crsn after.crsn

end AccountState

/-- An account that has its sequence numbers in step and accepts one more. -/
structure Ready (used : List Nat) (nonce : Nat) (before after : AccountState Currency) : Prop where
  tracks : after.Tracks used
  accepts : after.Accepts used nonce
  grows : Crsn.Grows before.crsn after.crsn

variable {before : AccountState Currency} {next : SenderState Currency} {crsn : Crsn}

/-- Publishing a window changes nothing about what was used. -/
theorem Ready.publish {crsnsAllowed : Bool} {size : Nat} (ready : Ready used nonce before account)
    (published : Crsn.publish crsnsAllowed account.crsn account.sequenceNumber size = .ok crsn) :
    Ready used nonce before { account with crsn := some crsn } := by
  obtain ⟨tracks, accepts, grows⟩ := ready
  have absent : account.crsn = none := (Crsn.publish_eq_ok published).1
  obtain ⟨start, settled⟩ :=
    Crsn.publish_settled published tracks.sequenceNumber_le (tracks.counter absent)
  refine ⟨⟨tracks.nodup, tracks.count, tracks.bounded, nofun, ?_⟩,
    ⟨accepts.fresh, accepts.small, nofun, ?_⟩, grows.trans (absent ▸ nofun)⟩
  · rintro window ⟨⟩
    exact settled
  · rintro window ⟨⟩
    rw [start, accepts.next absent]
    exact Nat.lt_add_of_pos_right settled.positive

/-- So does moving the window by force. -/
theorem Ready.forceExpire {shiftAmount : Nat} (ready : Ready used nonce before account)
    (moved : Crsn.forceExpire account.crsn shiftAmount = .ok crsn) :
    Ready used nonce before { account with crsn := some crsn } := by
  obtain ⟨tracks, accepts, grows⟩ := ready
  obtain ⟨window, found, settled, size, order⟩ :=
    Crsn.Settled.forceExpire moved tracks.window tracks.bounded
  refine ⟨⟨tracks.nodup, tracks.count, tracks.bounded, nofun, ?_⟩,
    ⟨accepts.fresh, accepts.small, nofun, ?_⟩, grows.trans ?_⟩
  · rintro other ⟨⟩
    exact settled
  · rintro other ⟨⟩
    have inside := accepts.inside window found
    omega
  · intro other same
    rw [found] at same
    cases same
    exact ⟨crsn, rfl, size, order⟩

/-- What each action keeps, a body that returns keeps. -/
theorem Body.run_induction {motive : SenderState Currency → Prop} (start : motive state)
    (step : ∀ state action next, motive state → Body.act state action = .ok next → motive next)
    (executed : body.run state = .ok next) : motive next := by
  obtain ⟨last, acted, rest⟩ := bind_eq_ok_iff.mp executed
  cases abort : body.abort with
  | some code =>
    rw [abort] at rest
    cases rest
  | none =>
    rw [abort] at rest
    cases rest
    clear executed
    generalize body.actions = actions at acted
    induction actions generalizing state with
    | nil =>
      cases acted
      exact start
    | cons action actions ih =>
      obtain ⟨middle, first, rest⟩ := bind_eq_ok_iff.mp acted
      exact ih (step _ _ _ start first) rest

/-- The account from which the epilogue starts, with the effects of the body or without. -/
theorem Body.run_ready (tracks : before.Tracks used) (accepts : before.Accepts used nonce)
    (found : state.account = some before) (reached : next = state ∨ body.run state = .ok next) :
    ∃ after, next.account = some after ∧ Ready used nonce before after := by
  have start : ∃ after, state.account = some after ∧ Ready used nonce before after :=
    ⟨before, found, tracks, accepts, .refl _⟩
  rcases reached with rfl | executed
  · exact start
  refine Body.run_induction (motive := fun state => ∃ after, state.account = some after ∧
    Ready used nonce before after) start ?_ executed
  rintro state action next ⟨account, found, ready⟩ acted
  cases action with
  | publishCrsn size =>
    rw [Body.act, publishCrsn, found, borrowGlobal, ok_bind] at acted
    obtain ⟨crsn, published, same⟩ := bind_eq_ok_iff.mp acted
    cases same
    exact ⟨_, rfl, ready.publish published⟩
  | forceExpire shiftAmount =>
    rw [Body.act, forceExpire, found, borrowGlobal, ok_bind] at acted
    obtain ⟨crsn, moved, same⟩ := bind_eq_ok_iff.mp acted
    cases same
    exact ⟨_, rfl, ready.forceExpire moved⟩
  | other effect =>
    cases acted
    rw [Effect.apply, found, Option.map_some]
    exact ⟨_, rfl, ready.tracks.congr rfl rfl, ready.accepts.congr rfl rfl, ready.grows⟩

/-- The time, the pot and the balance that a fee needs are published. -/
structure SenderState.Chargeable (state : SenderState Currency) (currency : Currency) : Prop where
  operating : state.chain.currentTimeMicroseconds.isSome = true
  pot : (state.chain.transactionFee currency).isSome = true
  balance : ∃ account, state.account = some account ∧ (account.balance currency).isSome = true

theorem SenderState.Chargeable.run {currency : Currency} (chargeable : state.Chargeable currency)
    (executed : body.run state = .ok next) : next.Chargeable currency := by
  refine Body.run_induction (motive := (·.Chargeable currency)) chargeable ?_ executed
  rintro state action next ⟨operating, pot, account, found, published⟩ acted
  cases action with
  | publishCrsn size =>
    rw [Body.act, publishCrsn, found, borrowGlobal, ok_bind] at acted
    obtain ⟨crsn, -, same⟩ := bind_eq_ok_iff.mp acted
    cases same
    exact ⟨operating, pot, _, rfl, published⟩
  | forceExpire shiftAmount =>
    rw [Body.act, forceExpire, found, borrowGlobal, ok_bind] at acted
    obtain ⟨crsn, -, same⟩ := bind_eq_ok_iff.mp acted
    cases same
    exact ⟨operating, pot, _, rfl, published⟩
  | other effect =>
    cases acted
    rw [Effect.apply, found, Option.map_some]
    refine ⟨?_, ?_, _, rfl, ?_⟩ <;> simp [Option.isSome_or, operating, pot, published]

/-- The fee for the gas that a transaction has used. -/
def UserTransaction.fee (txn : UserTransaction Currency) (gasUnitsRemaining : Nat) : Nat :=
  txn.gasPrice * (txn.maxGasUnits - gasUnitsRemaining)

/-- What a passed prologue tells. -/
theorem prologueCommon_eq_ok (found : state.account = some account) (tracks : account.Tracks used)
    (passed : prologueCommon sha3 state txn = .ok ()) :
    state.chain.assertOperating = .ok () ∧ checkGasDeposit state.chain account txn = .ok () ∧
      account.Accepts used txn.sequenceNumber := by
  obtain ⟨chainId, chainIdRead, passed⟩ := bind_eq_ok_iff.mp passed
  obtain ⟨operating, -⟩ := check_eq_ok_iff.mp chainIdRead
  simp only [found, borrowGlobal, ok_bind, check_eq_ok_iff] at passed
  obtain ⟨-, -, -, -, deposit, passed⟩ := passed
  obtain ⟨now, -, passed⟩ := bind_eq_ok_iff.mp passed
  simp only [check_eq_ok_iff, assert_eq_ok_iff] at passed
  obtain ⟨-, small, checked⟩ := passed
  exact ⟨operating, deposit, tracks.checkSequenceNumber small checked⟩

section Epilogue

variable [DecidableEq Currency] {final : SenderState Currency}
  {chain : ChainState Currency}

variable {amount : Nat}

/-- The fee changes neither the sequence number nor the window. -/
theorem payFee_eq_ok {currency : Currency}
    (paid : payFee chain account currency amount = .ok final) :
    ∃ after, final.account = some after ∧ after.sequenceNumber = account.sequenceNumber ∧
      after.crsn = account.crsn := by
  rw [payFee] at paid
  split at paid
  · simp only [bind_eq_ok_iff] at paid
    obtain ⟨coin, -, _, -, rest, -, _, -, _, -, fees, -, _, -, paid⟩ := paid
    cases paid
    exact ⟨_, rfl, rfl, rfl⟩
  · cases paid
    exact ⟨account, rfl, rfl, rfl⟩

variable {gasUnitsRemaining : Nat}

section

variable (found : state.account = some account) (tracks : account.Tracks used)
  (accepts : account.Accepts used txn.sequenceNumber)
include found tracks accepts

/-- The epilogue up to the fee. -/
theorem epilogueCommon_eq (enough : gasUnitsRemaining ≤ txn.maxGasUnits)
    (fits : txn.fee gasUnitsRemaining ≤ maxU64) :
    ∃ after : AccountState Currency,
      after.balance = account.balance ∧ after.Tracks (txn.sequenceNumber :: used) ∧
        Crsn.Grows account.crsn after.crsn ∧
        epilogueCommon state txn gasUnitsRemaining =
          payFee state.chain after txn.gasCurrency (txn.fee gasUnitsRemaining) := by
  have below := tracks.sequenceNumber_lt accepts
  obtain ⟨crsn, recorded, after, grows⟩ := tracks.recordSequenceNumber accepts
  refine ⟨{ account with
    crsn := crsn
    sequenceNumber := account.sequenceNumber + 1 }, rfl, after, grows, ?_⟩
  rw [UserTransaction.fee] at fits ⊢
  rw [epilogueCommon, assert_of enough, ok_bind, Move.subU64_of_le enough, ok_bind, assert_of fits,
    ok_bind, Move.mulU64_of_le fits, ok_bind, found, assert_of (by rfl), ok_bind, borrowGlobal,
    ok_bind, assert_of below, ok_bind, recorded, ok_bind, Move.addU64_of_le below, ok_bind]

/-- What the epilogue does to the sequence numbers. -/
theorem epilogueCommon_tracks (done : epilogueCommon state txn gasUnitsRemaining = .ok final) :
    account.GoesOn (txn.sequenceNumber :: used) final := by
  have checks := done
  obtain ⟨enough, checks⟩ := check_eq_ok_iff.mp checks
  obtain ⟨gasUsed, difference, checks⟩ := bind_eq_ok_iff.mp checks
  obtain ⟨fits, -⟩ := check_eq_ok_iff.mp checks
  rw [assert_eq_ok_iff] at enough fits
  obtain ⟨rfl, -⟩ := Move.subU64_eq_ok_iff.mp difference
  obtain ⟨charged, -, chargedTracks, grows, same⟩ :=
    epilogueCommon_eq found tracks accepts enough fits
  rw [same] at done
  obtain ⟨after, afterFound, sequenceNumber, crsn⟩ := payFee_eq_ok done
  refine ⟨after, afterFound, chargedTracks.congr sequenceNumber crsn, ?_⟩
  rw [crsn]
  exact grows

end

/-- With a pot that has room the fee is paid, or the balance is too small. -/
theorem payFee_cases {currency : Currency} {fees coin : Nat}
    (operating : chain.assertOperating = .ok ())
    (pot : chain.transactionFee currency = some fees) (room : fees + amount ≤ maxU64)
    (balance : account.balance currency = some coin) :
    (∃ final, payFee chain account currency amount = .ok final) ∨ coin < amount ∧
      payFee chain account currency amount = .error (.abort .diemAccount .limitExceeded 1005) := by
  rw [payFee]
  split
  · rw [balance, borrowGlobal, ok_bind]
    by_cases pays : amount ≤ coin
    · rw [assert_of pays, ok_bind, Move.subU64_of_le pays, ok_bind, operating, ok_bind, pot,
        assert_of (by rfl), ok_bind, borrowGlobal, ok_bind, assert_of (by omega), ok_bind]
      exact .inl ⟨_, rfl⟩
    · rw [Move.assert, if_neg pays]
      exact .inr ⟨not_le.mp pays, rfl⟩
  · exact .inl ⟨_, rfl⟩

variable (state) in
/-- The pot of fees has room for a fee. -/
def SenderState.HasRoom (currency : Currency) (amount : Nat) : Prop :=
  ∀ fees, state.chain.transactionFee currency = some fees → fees + amount ≤ maxU64

section

variable (found : state.account = some account) (tracks : account.Tracks used)
  (accepts : account.Accepts used txn.sequenceNumber)
  (enough : gasUnitsRemaining ≤ txn.maxGasUnits) (fits : txn.fee gasUnitsRemaining ≤ maxU64)
  (chargeable : 0 < txn.fee gasUnitsRemaining → state.Chargeable txn.gasCurrency)
  (room : state.HasRoom txn.gasCurrency (txn.fee gasUnitsRemaining))
include found tracks accepts enough fits chargeable room

/-- With a pot that has room the epilogue returns, or the balance is too small. -/
theorem epilogueCommon_cases :
    (∃ final, epilogueCommon state txn gasUnitsRemaining = .ok final) ∨
      (∃ coin, account.balance txn.gasCurrency = some coin ∧ coin < txn.fee gasUnitsRemaining) ∧
      epilogueCommon state txn gasUnitsRemaining =
        .error (.abort .diemAccount .limitExceeded 1005) := by
  obtain ⟨after, balance, -, -, same⟩ := epilogueCommon_eq found tracks accepts enough fits
  rw [same]
  rcases Nat.eq_zero_or_pos (txn.fee gasUnitsRemaining) with free | positive
  · rw [free, payFee, if_neg (lt_irrefl 0)]
    exact .inl ⟨_, rfl⟩
  · obtain ⟨operating, pot, own, ownFound, published⟩ := chargeable positive
    rw [found] at ownFound
    cases ownFound
    obtain ⟨fees, isPot⟩ := Option.isSome_iff_exists.mp pot
    obtain ⟨coin, isCoin⟩ := Option.isSome_iff_exists.mp published
    exact (payFee_cases (assert_of operating _) isPot (room fees isPot)
      (balance ▸ isCoin)).imp_right (.imp_left fun less => ⟨coin, isCoin, less⟩)

end

/-- A transaction that passed the prologue is kept, if its fee fits into the pot. -/
theorem executeUserTransaction_kept (found : state.account = some account)
    (tracks : account.Tracks used) (passed : prologueCommon sha3 state txn = .ok ())
    (enough : gasUnitsRemaining ≤ txn.maxGasUnits)
    (room : ∀ charged, charged = state ∨ body.run state = .ok charged →
      charged.HasRoom txn.gasCurrency (txn.fee gasUnitsRemaining)) :
    ∃ final, executeUserTransaction sha3 state txn body gasUnitsRemaining = some final := by
  obtain ⟨operating, deposit, accepts⟩ := prologueCommon_eq_ok found tracks passed
  have covered : txn.fee gasUnitsRemaining ≤ txn.gasPrice * txn.maxGasUnits :=
    Nat.mul_le_mul_left _ (Nat.sub_le _ _)
  obtain ⟨fits, deposit⟩ := check_eq_ok_iff.mp deposit
  rw [assert_eq_ok_iff] at fits
  have charged : 0 < txn.fee gasUnitsRemaining →
      state.Chargeable txn.gasCurrency ∧ ∃ coin, account.balance txn.gasCurrency = some coin ∧
        txn.gasPrice * txn.maxGasUnits ≤ coin := by
    intro positive
    rw [Move.mulU64_of_le fits, ok_bind, if_pos (positive.trans_le covered)] at deposit
    simp only [check_eq_ok_iff, assert_eq_ok_iff] at deposit
    obtain ⟨pot, published, deposit⟩ := deposit
    obtain ⟨coin, coinFound, pays⟩ := bind_eq_ok_iff.mp deposit
    rw [assert_eq_ok_iff] at pays
    rw [Move.borrowGlobal_eq_ok_iff] at coinFound
    exact ⟨⟨assert_eq_ok_iff.mp operating, pot, account, found, published⟩, coin, coinFound, pays⟩
  -- without the effects of the body the deposit pays
  have cleanup : ∃ final, failedTransactionCleanup state txn gasUnitsRemaining = some final := by
    rcases epilogueCommon_cases found tracks accepts enough (covered.trans fits)
      (fun positive => (charged positive).1) (room state (.inl rfl)) with
      ⟨final, done⟩ | ⟨⟨coin, isCoin, poor⟩, -⟩
    · exact ⟨final, by rw [failedTransactionCleanup, done]; rfl⟩
    · obtain ⟨-, other, isOther, pays⟩ := charged (by omega)
      rw [isOther] at isCoin
      cases isCoin
      exact absurd poor (not_lt.mpr (covered.trans pays))
  rw [executeUserTransaction, passed]
  dsimp only
  cases executed : body.run state with
  | error abort => exact cleanup
  | ok middle =>
    obtain ⟨between, middleFound, ready⟩ := Body.run_ready tracks accepts found (.inr executed)
    rcases epilogueCommon_cases middleFound ready.tracks ready.accepts enough (covered.trans fits)
      (fun positive => (charged positive).1.run executed) (room middle (.inr executed)) with
      ⟨final, done⟩ | ⟨-, failed⟩
    · exact ⟨final, by simp only [done]⟩
    · simp only [failed]
      exact cleanup

/-- A transaction that is kept uses its sequence number. -/
theorem executeUserTransaction_tracks (found : state.account = some account)
    (tracks : account.Tracks used)
    (kept : executeUserTransaction sha3 state txn body gasUnitsRemaining = some final) :
    account.GoesOn (txn.sequenceNumber :: used) final := by
  rw [executeUserTransaction] at kept
  cases passed : prologueCommon sha3 state txn with
  | error abort =>
    rw [passed] at kept
    cases kept
  | ok passes =>
    rw [passed] at kept
    have accepts := (prologueCommon_eq_ok found tracks passed).2.2
    -- without the effects of the body the epilogue starts from the same account
    have cleanup : failedTransactionCleanup state txn gasUnitsRemaining = some final →
          account.GoesOn (txn.sequenceNumber :: used) final := by
      intro cleaned
      rw [failedTransactionCleanup] at cleaned
      cases done : epilogueCommon state txn gasUnitsRemaining with
      | error abort =>
        rw [done] at cleaned
        cases cleaned
      | ok charged =>
        rw [done] at cleaned
        cases cleaned
        exact epilogueCommon_tracks found tracks accepts done
    cases executed : body.run state with
    | error abort =>
      rw [executed] at kept
      exact cleanup kept
    | ok middle =>
      rw [executed] at kept
      dsimp only at kept
      cases done : epilogueCommon middle txn gasUnitsRemaining with
      | error abort =>
        rw [done] at kept
        dsimp only at kept
        split at kept
        · exact cleanup kept
        · cases kept
      | ok charged =>
        rw [done] at kept
        cases kept
        obtain ⟨between, middleFound, ready⟩ := Body.run_ready tracks accepts found (.inr executed)
        obtain ⟨after, afterFound, afterTracks, grows⟩ :=
          epilogueCommon_tracks middleFound ready.tracks ready.accepts done
        exact ⟨after, afterFound, afterTracks, ready.grows.trans grows⟩

end Epilogue

/-- What happens on the chain, as one account sees it. -/
inductive AccountEvent (Currency : Type) where
  | environment (effect : Effect Currency)
  | transaction (txn : UserTransaction Currency) (body : Body Currency) (gasUnitsRemaining : Nat)

/-- The state with the sequence numbers of the transactions that were kept. -/
structure AccountProgress (Currency : Type) where
  state : SenderState Currency
  used : List Nat

namespace AccountProgress

/-- A new account. -/
def created (chain : ChainState Currency) (authenticationKey : List UInt8) (isFrozen : Bool)
    (balance : Currency → Option Nat) : AccountProgress Currency where
  state := ⟨chain, some ⟨authenticationKey, 0, isFrozen, balance, none⟩⟩
  used := []

variable [DecidableEq Currency] (sha3 : List UInt8 → List UInt8)
  (progress : AccountProgress Currency)

/-- The effect of one event. -/
def step :
    AccountEvent Currency → AccountProgress Currency
  | .environment effect => { progress with state := effect.apply progress.state }
  | .transaction txn body gasUnitsRemaining =>
    match executeUserTransaction sha3 progress.state txn body gasUnitsRemaining with
    | none => progress
    | some state => ⟨state, txn.sequenceNumber :: progress.used⟩

/-- Events one after the other. -/
def run (events : List (AccountEvent Currency)) : AccountProgress Currency :=
  events.foldl (step sha3) progress

end AccountProgress

variable [DecidableEq Currency] (sha3 : List UInt8 → List UInt8)
  {progress : AccountProgress Currency}

section

variable (found : progress.state.account = some account) (tracks : account.Tracks progress.used)
include found tracks

/-- One event keeps the sequence numbers in step. -/
theorem AccountProgress.step_tracks (event : AccountEvent Currency) :
    account.GoesOn (progress.step sha3 event).used (progress.step sha3 event).state := by
  cases event with
  | environment effect =>
    rw [step, Effect.apply, found, Option.map_some]
    exact ⟨_, rfl, tracks.congr rfl rfl, .refl _⟩
  | transaction txn body gasUnitsRemaining =>
    rw [step]
    cases kept : executeUserTransaction sha3 progress.state txn body gasUnitsRemaining with
    | none => exact ⟨account, found, tracks, .refl _⟩
    | some final => exact executeUserTransaction_tracks found tracks kept

/-- So does every run. -/
theorem AccountProgress.run_tracks (events : List (AccountEvent Currency)) :
    account.GoesOn (progress.run sha3 events).used (progress.run sha3 events).state := by
  induction events generalizing progress account with
  | nil => exact ⟨account, found, tracks, .refl _⟩
  | cons event events ih =>
    obtain ⟨middle, middleFound, middleTracks, first⟩ := step_tracks sha3 found tracks event
    obtain ⟨after, afterFound, afterTracks, second⟩ := ih middleFound middleTracks
    exact ⟨after, afterFound, afterTracks, first.trans second⟩

end

theorem AccountProgress.used_subset_run (progress : AccountProgress Currency)
    (events : List (AccountEvent Currency)) : progress.used ⊆ (progress.run sha3 events).used := by
  induction events generalizing progress with
  | nil => exact Subset.refl _
  | cons event events ih =>
    refine Subset.trans ?_ (ih (progress.step sha3 event))
    cases event with
    | environment effect => exact Subset.refl _
    | transaction txn body gasUnitsRemaining =>
      rw [step]
      cases executeUserTransaction sha3 progress.state txn body gasUnitsRemaining with
      | none => exact Subset.refl _
      | some final => exact subset_cons_self _ _

/-- No sequence number of the account can be used again. -/
structure ReplayProtected (progress : AccountProgress Currency) : Prop where
  /-- The transactions that were kept have different sequence numbers. -/
  once : progress.used.Nodup
  /-- The prologue refuses all of them from now on. -/
  refused :
    ∀ txn, txn.sequenceNumber ∈ progress.used → prologueCommon sha3 progress.state txn ≠ .ok ()
  /-- The first bit of a window is clear. -/
  clear : ∀ account crsn,
    progress.state.account = some account → account.crsn = some crsn → crsn.slots.get 0 = false
  /-- A window moves to the right only. -/
  grows : ∀ account crsn, progress.state.account = some account → account.crsn = some crsn →
    ∀ events, ∃ after later,
      (progress.run sha3 events).state.account = some after ∧ after.crsn = some later ∧
        crsn.minNonce ≤ later.minNonce
  /-- A window accepts what is inside and neither used nor expired. -/
  accepts : ∀ account crsn, progress.state.account = some account → account.crsn = some crsn →
    ∀ nonce, ∃ accepted, Crsn.check account.crsn nonce = .ok accepted ∧ (accepted = true ↔
      crsn.minNonce ≤ nonce ∧ nonce < crsn.minNonce + crsn.size ∧ nonce ∉ progress.used ∧
        ¬ crsn.Expired nonce)
  /-- After a passed prologue the nonce is recorded, whatever the body did. -/
  records : ∀ txn body state, prologueCommon sha3 progress.state txn = .ok () →
    state = progress.state ∨ Body.run body progress.state = .ok state →
      ∃ account, state.account = some account ∧ ∀ crsn, account.crsn = some crsn →
        ∃ recorded, Crsn.record account.crsn txn.sequenceNumber = .ok (true, some recorded)
  /-- A number that passed the prologue never passes again, if the fee fits into the pot. -/
  spent : ∀ txn body gasUnitsRemaining, prologueCommon sha3 progress.state txn = .ok () →
    gasUnitsRemaining ≤ txn.maxGasUnits →
    (∀ state, state = progress.state ∨ Body.run body progress.state = .ok state →
      state.HasRoom txn.gasCurrency (txn.fee gasUnitsRemaining)) →
      ∀ events other, other.sequenceNumber = txn.sequenceNumber →
        prologueCommon sha3 ((progress.step sha3 (.transaction txn body gasUnitsRemaining)).run sha3
          events).state other ≠ .ok ()

/-- An account that has its sequence numbers in step is protected. -/
theorem AccountProgress.replayProtected (found : progress.state.account = some account)
    (tracks : account.Tracks progress.used) : ReplayProtected sha3 progress where
  once := tracks.nodup
  refused := by
    intro txn member passed
    exact (prologueCommon_eq_ok found tracks passed).2.2.fresh member
  clear := by
    intro same crsn sameFound window
    rw [found] at sameFound
    cases sameFound
    exact (tracks.window crsn window).clear
  grows := by
    intro same crsn sameFound window events
    rw [found] at sameFound
    cases sameFound
    obtain ⟨after, afterFound, -, grows⟩ := run_tracks sha3 found tracks events
    obtain ⟨later, laterFound, -, order⟩ := grows crsn window
    exact ⟨after, later, afterFound, laterFound, order⟩
  accepts := by
    intro same crsn sameFound window nonce
    rw [found] at sameFound
    cases sameFound
    have settled := tracks.window crsn window
    refine ⟨_, window ▸ settled.check_eq nonce, ?_⟩
    rw [decide_eq_true_iff]
    constructor
    · rintro ⟨lower, upper, fresh⟩
      refine ⟨lower, upper, fresh, ?_⟩
      rintro ⟨event, member, -, above, -⟩
      have passed := settled.shifted event member
      omega
    · rintro ⟨lower, upper, fresh, -⟩
      exact ⟨lower, upper, fresh⟩
  records := by
    intro txn body state passed reached
    have accepts := (prologueCommon_eq_ok found tracks passed).2.2
    obtain ⟨after, afterFound, ready⟩ := Body.run_ready tracks accepts found reached
    refine ⟨after, afterFound, fun crsn window => ?_⟩
    obtain ⟨recorded, done, -⟩ := (ready.tracks.window crsn window).record ready.accepts.fresh
      (ready.accepts.inside crsn window)
      (ready.tracks.bounded_cons ready.accepts)
    exact ⟨recorded, window ▸ done⟩
  spent := by
    intro txn body gasUnitsRemaining passed enough room events other same again
    obtain ⟨final, kept⟩ := executeUserTransaction_kept found tracks passed enough room
    obtain ⟨after, afterFound, afterTracks, -⟩ := executeUserTransaction_tracks found tracks kept
    rw [step, kept] at again
    obtain ⟨last, lastFound, lastTracks, -⟩ :=
      run_tracks sha3 (show (mk final _).state.account = _ from afterFound) afterTracks events
    refine (prologueCommon_eq_ok lastFound lastTracks again).2.2.fresh ?_
    rw [same]
    exact used_subset_run sha3 _ events mem_cons_self

/-- The account is protected after every run from its creation on. -/
theorem AccountProgress.run_replayProtected
    (chain : ChainState Currency)
    (authenticationKey : List UInt8)
    (isFrozen : Bool)
    (balance : Currency → Option Nat)
    (events : List (AccountEvent Currency)) :
    ReplayProtected sha3 ((created chain authenticationKey isFrozen balance).run sha3 events) := by
  have start : AccountState.Tracks
        (⟨authenticationKey, 0, isFrozen, balance, none⟩ : AccountState Currency) [] :=
    ⟨nodup_nil, rfl, nofun, nofun, nofun⟩
  obtain ⟨account, found, tracks, -⟩ := run_tracks sha3
    (rfl : (created chain authenticationKey isFrozen balance).state.account = _) start events
  exact replayProtected sha3 found tracks

/--
The pot of fees is full: a transaction that passed the prologue is discarded, and passes again.
-/
theorem AccountProgress.prologue_passed_twice :
    let progress := created (⟨1, some 0, fun _ => some maxU64, true⟩ : ChainState Unit) [] false
      fun _ => some 10
    let txn : UserTransaction Unit := ⟨0, [], 1, 1, 1, 1, ()⟩
    let after := progress.step id (.transaction txn ⟨[], none⟩ 0)
    prologueCommon id progress.state txn = .ok () ∧
      prologueCommon id after.state txn = .ok () ∧ after.used = [] := by
  decide

end Replay

end Diem
