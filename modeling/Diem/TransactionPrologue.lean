import Diem.Crsn

namespace Diem

open Move

/-!
# Prologue and epilogue of user transactions

The part of the chain that decides about the transactions of one account, with
`prologue_common`, `epilogue_common` and `publish_crsn` of
`DPN/sources/DiemAccount.move`, and how the virtual machine calls them around the body of
a transaction (`diem-vm/src/diem_vm.rs`).  Amounts and times are unsigned 64-bit numbers.
-/

section Prologue

variable (Currency : Type)

/-- What the chain holds for one account. -/
structure AccountState where
  authenticationKey : List UInt8
  sequenceNumber : Nat
  isFrozen : Bool
  balance : Currency → Option Nat
  crsn : Option Crsn

/-- What the chain holds for all accounts. -/
structure ChainState where
  id : Nat
  currentTimeMicroseconds : Option Nat
  transactionFee : Currency → Option Nat
  crsnsAllowed : Bool

/-- The chain as the transactions of one account see it. -/
structure SenderState where
  chain : ChainState Currency
  account : Option (AccountState Currency)

/-- What the prologue and the epilogue get from a transaction. -/
structure UserTransaction where
  sequenceNumber : Nat
  publicKey : List UInt8
  gasPrice : Nat
  maxGasUnits : Nat
  expirationTimeSeconds : Nat
  chainId : Nat
  gasCurrency : Currency

variable {Currency}

namespace ChainState

variable (chain : ChainState Currency)

/-- Genesis is over. -/
def assertOperating : Move Unit :=
  assert (chain.currentTimeMicroseconds.isSome = true) (.abort .diemTimestamp .invalidState 1)

/-- The identifier of the chain. -/
def getChainId : Move Nat := do
  chain.assertOperating
  return chain.id

def nowSeconds : Move Nat := do
  chain.assertOperating
  let microseconds ← borrowGlobal chain.currentTimeMicroseconds
  return microseconds / 1000000

end ChainState

/-- The account cannot pay for the gas. -/
def cantPayGasDeposit : MoveAbort :=
  .abort .diemAccount .invalidArgument 1005

/-- The account can pay the largest fee of a transaction. -/
def checkGasDeposit (chain : ChainState Currency) (account : AccountState Currency)
    (txn : UserTransaction Currency) : Move Unit := do
  assert (txn.gasPrice * txn.maxGasUnits ≤ maxU64) cantPayGasDeposit
  let maxTransactionFee ← mulU64 txn.gasPrice txn.maxGasUnits
  if 0 < maxTransactionFee then
    assert ((chain.transactionFee txn.gasCurrency).isSome = true)
      (.abort .diemAccount .invalidArgument 1012)
    assert ((account.balance txn.gasCurrency).isSome = true) cantPayGasDeposit
    let balanceAmount ← borrowGlobal (account.balance txn.gasCurrency)
    assert (maxTransactionFee ≤ balanceAmount) cantPayGasDeposit

variable (account : AccountState Currency) (sequenceNumber : Nat)

/-- The sequence number is the next one, or the window accepts it. -/
def checkSequenceNumber : Move Unit := do
  if account.crsn.isSome then
    let accepted ← Crsn.check account.crsn sequenceNumber
    assert (accepted = true) (.abort .diemAccount .invalidArgument 1014)
  else
    assert (account.sequenceNumber ≤ sequenceNumber) (.abort .diemAccount .invalidArgument 1002)
    assert (sequenceNumber = account.sequenceNumber) (.abort .diemAccount .invalidArgument 1003)

/-- The checks before a transaction is executed. -/
def prologueCommon (sha3 : List UInt8 → List UInt8) (state : SenderState Currency)
    (txn : UserTransaction Currency) : Move Unit := do
  let chainId ← state.chain.getChainId
  assert (chainId = txn.chainId) (.abort .diemAccount .invalidArgument 1007)
  assert (state.account.isSome = true) (.abort .diemAccount .invalidArgument 1004)
  let account ← borrowGlobal state.account
  assert (account.isFrozen = false) (.abort .diemAccount .invalidState 1000)
  assert (sha3 txn.publicKey = account.authenticationKey)
    (.abort .diemAccount .invalidArgument 1001)
  checkGasDeposit state.chain account txn
  let now ← state.chain.nowSeconds
  assert (now < txn.expirationTimeSeconds) (.abort .diemAccount .invalidArgument 1006)
  assert (txn.sequenceNumber < maxU64) (.abort .diemAccount .limitExceeded 1011)
  checkSequenceNumber account txn.sequenceNumber

/-- Use the sequence number of a transaction. -/
def recordSequenceNumber : Move (Option Crsn) := do
  if account.crsn.isSome then
    let (accepted, crsn) ← Crsn.record account.crsn sequenceNumber
    assert (accepted = true) (.abort .diemAccount .invalidArgument 1014)
    return crsn
  else
    assert (account.sequenceNumber = sequenceNumber) (.abort .diemAccount .invalidArgument 1003)
    return account.crsn

variable (state : SenderState Currency)

/-- Start a window at the current sequence number. -/
def publishCrsn (size : Nat) : Move (SenderState Currency) := do
  let account ← borrowGlobal state.account
  let crsn ← Crsn.publish state.chain.crsnsAllowed account.crsn account.sequenceNumber size
  return { state with account := some { account with crsn := some crsn } }

/-- Move the window of the account. -/
def forceExpire (shiftAmount : Nat) : Move (SenderState Currency) := do
  let account ← borrowGlobal state.account
  let crsn ← Crsn.forceExpire account.crsn shiftAmount
  return { state with account := some { account with crsn := some crsn } }

/-- All that can change besides sequence numbers. -/
structure Effect (Currency : Type) where
  chain : ChainState Currency
  authenticationKey : List UInt8
  isFrozen : Bool
  balance : Currency → Option Nat

/-- Change all of that; the time, a pot of fees and a balance are never unpublished. -/
def Effect.apply (effect : Effect Currency)
    (state : SenderState Currency) : SenderState Currency where
  chain :=
    { effect.chain with
      currentTimeMicroseconds :=
        effect.chain.currentTimeMicroseconds.or state.chain.currentTimeMicroseconds
      transactionFee := fun currency =>
        (effect.chain.transactionFee currency).or (state.chain.transactionFee currency) }
  account := state.account.map fun account =>
    { account with
      authenticationKey := effect.authenticationKey
      isFrozen := effect.isFrozen
      balance := fun currency => (effect.balance currency).or (account.balance currency) }

/-- What the body of a transaction does. -/
inductive BodyAction (Currency : Type) where
  | publishCrsn (size : Nat)
  | forceExpire (shiftAmount : Nat)
  | other (effect : Effect Currency)

/-- The body of a transaction, which may abort in the end. -/
structure Body (Currency : Type) where
  actions : List (BodyAction Currency)
  abort : Option MoveAbort

namespace Body

def act : BodyAction Currency → Move (SenderState Currency)
  | .publishCrsn size => Diem.publishCrsn state size
  | .forceExpire shiftAmount => Diem.forceExpire state shiftAmount
  | .other effect => .ok (effect.apply state)

/-- Execute a body. -/
def run (body : Body Currency) (state : SenderState Currency) : Move (SenderState Currency) := do
  let state ← body.actions.foldlM act state
  match body.abort with
  | some abort => .error abort
  | none => .ok state

end Body

/-- An abort of the epilogue that lets the transaction fail instead of dropping it. -/
def keepsTransaction (abort : MoveAbort) : Bool :=
  abort = .abort .diemAccount .limitExceeded 1005

variable [DecidableEq Currency]

/-- Take the fee from the balance and put it into the pot. -/
def payFee (chain : ChainState Currency) (account : AccountState Currency) (currency : Currency)
    (amount : Nat) : Move (SenderState Currency) := do
  if 0 < amount then
    let coin ← borrowGlobal (account.balance currency)
    assert (amount ≤ coin) (.abort .diemAccount .limitExceeded 1005)
    let rest ← subU64 coin amount
    chain.assertOperating
    assert ((chain.transactionFee currency).isSome = true) (.abort .transactionFee .notPublished 0)
    let fees ← borrowGlobal (chain.transactionFee currency)
    assert (amount ≤ maxU64 - fees) (.abort .diem .limitExceeded 7)
    return {
      chain := { chain with
        transactionFee := Function.update chain.transactionFee currency (some (fees + amount)) }
      account := some { account with
        balance := Function.update account.balance currency (some rest) } }
  else
    return ⟨chain, some account⟩

variable (sha3 : List UInt8 → List UInt8) (state : SenderState Currency)
  (txn : UserTransaction Currency) (body : Body Currency) (gasUnitsRemaining : Nat)

/-- Use the sequence number and charge for the gas. -/
def epilogueCommon : Move (SenderState Currency) := do
  assert (gasUnitsRemaining ≤ txn.maxGasUnits) (.abort .diemAccount .invalidArgument 20)
  let gasUsed ← subU64 txn.maxGasUnits gasUnitsRemaining
  assert (txn.gasPrice * gasUsed ≤ maxU64) (.abort .diemAccount .limitExceeded 20)
  let transactionFeeAmount ← mulU64 txn.gasPrice gasUsed
  assert (state.account.isSome = true) (.abort .diemAccount .notPublished 0)
  let account ← borrowGlobal state.account
  assert (account.sequenceNumber < maxU64) (.abort .diemAccount .limitExceeded 1011)
  let crsn ← recordSequenceNumber account txn.sequenceNumber
  let sequenceNumber ← addU64 account.sequenceNumber 1
  payFee state.chain { account with crsn, sequenceNumber } txn.gasCurrency transactionFeeAmount

/-- The epilogue without the effects of the body; nothing is kept if it aborts. -/
def failedTransactionCleanup : Option (SenderState Currency) :=
  (epilogueCommon state txn gasUnitsRemaining).toOption

/-- Execute a transaction; the result is the new state if it is kept. -/
def executeUserTransaction : Option (SenderState Currency) :=
  match prologueCommon sha3 state txn with
  | .error _ => none
  | .ok () =>
    match body.run state with
    | .error _ => failedTransactionCleanup state txn gasUnitsRemaining
    | .ok executed =>
      match epilogueCommon executed txn gasUnitsRemaining with
      | .ok final => some final
      | .error abort =>
        if keepsTransaction abort then
          failedTransactionCleanup state txn gasUnitsRemaining
        else
          none

end Prologue

end Diem
