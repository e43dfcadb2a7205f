import Diem.OrderedMap
import Diem.WeightedQuorum
import Diem.Word64

namespace Diem

open Word64

/-!
# Validator sets and voting power

`ValidatorVerifier` maps the account address of every validator to its public key
and voting power, and keeps the voting power a quorum needs.  Power is summed with
checked addition when a verifier is built, and with wrapping addition when the
authors of a certificate are counted.
-/

/-- An account address; validators are listed in address order. -/
abbrev AccountAddress := Nat

/-- An Ed25519 public key. -/
structure PublicKey where
  bytes : Nat
  deriving DecidableEq, Repr

/-- The reasons a set of signatures is refused for. -/
inductive VerifyError where
  | unknownAuthor
  | tooLittleVotingPower (votingPower quorumVotingPower : Nat)
  | tooManySignatures (numOfSignatures numOfAuthors : Nat)
  | invalidSignature
  | inconsistentBlockInfo
  deriving DecidableEq, Repr

/-- The key and the power of a validator. -/
structure ValidatorConsensusInfo where
  publicKey : PublicKey
  votingPower : Nat
  deriving DecidableEq, Repr

/-- Validators by their addresses. -/
abbrev ValidatorInfos := OrderedMap AccountAddress ValidatorConsensusInfo

/-- The validators of an epoch with the voting power that makes a quorum. -/
structure ValidatorVerifier where
  addressToValidatorInfo : ValidatorInfos
  quorumVotingPower : Nat
  totalVotingPower : Nat
  deriving DecidableEq

/-- Sum of all voting powers; `none` is the panic of the checked addition. -/
def sumVotingPower (addressToValidatorInfo : ValidatorInfos) : Option Nat :=
  addressToValidatorInfo.values.foldlM (fun sum info => checkedAdd? sum info.votingPower) 0

namespace ValidatorVerifier

/--
Build a verifier whose quorum is `2f + 1`, or zero for an empty map; `none` is the
panic of `sumVotingPower`.
-/
def new (addressToValidatorInfo : ValidatorInfos) : Option ValidatorVerifier := do
  let totalVotingPower ← sumVotingPower addressToValidatorInfo
  let quorumVotingPower :=
    if addressToValidatorInfo.isEmpty then
      0
    else
      wrap (wrap (totalVotingPower * 2) / 3 + 1)
  return { addressToValidatorInfo, quorumVotingPower, totalVotingPower }

variable (verifier : ValidatorVerifier)

/-- The public key registered for an address. -/
def getPublicKey (author : AccountAddress) : Option PublicKey :=
  (verifier.addressToValidatorInfo.get? author).map ValidatorConsensusInfo.publicKey

/-- The voting power registered for an address. -/
def getVotingPower (author : AccountAddress) : Option Nat :=
  (verifier.addressToValidatorInfo.get? author).map ValidatorConsensusInfo.votingPower

/-- The number of validators. -/
def len (verifier : ValidatorVerifier) : Nat :=
  verifier.addressToValidatorInfo.size

def getOrderedAccountAddresses : List AccountAddress :=
  verifier.addressToValidatorInfo.keys

/-- One iteration of the loop that adds up the authors' voting power. -/
def addVotingPower (aggregated : Nat) (author : AccountAddress) : Except VerifyError Nat :=
  match verifier.getVotingPower author with
  | some votingPower => .ok (wrap (aggregated + votingPower))
  | none => .error .unknownAuthor

/-- Accept authors that are all known and have the power of a quorum. -/
def checkVotingPower (authors : List AccountAddress) : Except VerifyError Unit := do
  let aggregated ← authors.foldlM verifier.addVotingPower 0
  if aggregated < verifier.quorumVotingPower then
    .error (.tooLittleVotingPower aggregated verifier.quorumVotingPower)
  else
    .ok ()

/-- The voting power of an address, zero when it is unknown. -/
def powerOf (author : AccountAddress) : Nat :=
  (verifier.getVotingPower author).getD 0

/-- The combined voting power of a list of authors. -/
def combinedPower (authors : List AccountAddress) : Nat :=
  (authors.map verifier.powerOf).sum

variable {verifier : ValidatorVerifier}

theorem getVotingPower_isSome_iff {author : AccountAddress} :
    (verifier.getVotingPower author).isSome ↔ author ∈ verifier.getOrderedAccountAddresses := by
  rw [getOrderedAccountAddresses, OrderedMap.mem_keys_iff]
  simp [getVotingPower, Option.isSome_iff_exists]

variable {authors : List AccountAddress}

/-- The accumulating loop adds up the power of authors that are all known. -/
theorem foldlM_addVotingPower_known
    (known : ∀ author ∈ authors, author ∈ verifier.getOrderedAccountAddresses) (aggregated : Nat)
    (fits : aggregated < 2 ^ 64) :
    authors.foldlM verifier.addVotingPower aggregated =
      .ok (wrap (aggregated + verifier.combinedPower authors)) := by
  induction authors generalizing aggregated with
  | nil =>
    simp [combinedPower, wrap_eq_self fits]
    rfl
  | cons author rest ih =>
    obtain ⟨votingPower, lookup⟩ :=
      Option.isSome_iff_exists.mp (getVotingPower_isSome_iff.mpr (known author (by simp)))
    have restKnown : ∀ later ∈ rest, later ∈ verifier.getOrderedAccountAddresses :=
      fun later member => known later (by simp [member])
    have stepShape :
        verifier.addVotingPower aggregated author = .ok (wrap (aggregated + votingPower)) := by
      simp [addVotingPower, lookup]
    rw [List.foldlM_cons, stepShape]
    change rest.foldlM verifier.addVotingPower (wrap (aggregated + votingPower)) = _
    rw [ih restKnown _ (wrap_lt _), wrap_wrap_add]
    simp [combinedPower, powerOf, lookup, Nat.add_assoc]

/-- The accumulating loop stops with an error at an unknown author. -/
theorem foldlM_addVotingPower_ok {aggregated result : Nat}
    (accepted : authors.foldlM verifier.addVotingPower aggregated = .ok result) :
    ∀ author ∈ authors, author ∈ verifier.getOrderedAccountAddresses := by
  induction authors generalizing aggregated with
  | nil => simp
  | cons author rest ih =>
    rw [List.foldlM_cons] at accepted
    cases lookup : verifier.getVotingPower author with
    | none =>
      simp only [addVotingPower, lookup] at accepted
      cases accepted
    | some votingPower =>
      simp only [addVotingPower, lookup] at accepted
      intro query member
      rcases List.mem_cons.mp member with isAuthor | inRest
      · subst query
        exact getVotingPower_isSome_iff.mp (by simp [lookup])
      · exact ih accepted query inRest

/-- What `checkVotingPower` accepts: known authors with the power of a quorum. -/
theorem checkVotingPower_ok_iff :
    verifier.checkVotingPower authors = .ok () ↔
      (∀ author ∈ authors, author ∈ verifier.getOrderedAccountAddresses) ∧
      verifier.quorumVotingPower ≤ wrap (verifier.combinedPower authors) := by
  by_cases known : ∀ author ∈ authors, author ∈ verifier.getOrderedAccountAddresses
  · have loop := foldlM_addVotingPower_known known 0 (by decide)
    rw [Nat.zero_add] at loop
    rw [checkVotingPower, loop]
    change
      (if wrap (verifier.combinedPower authors) < verifier.quorumVotingPower then _ else _) = _ ↔ _
    split
    · rename_i tooLittle
      simp only [reduceCtorEq, false_iff, not_and, not_le]
      exact fun _ => tooLittle
    · rename_i enough
      simp only [true_iff]
      exact ⟨known, not_lt.mp enough⟩
  · constructor
    · intro accepted
      cases loop : authors.foldlM verifier.addVotingPower 0 with
      | error failure =>
        rw [checkVotingPower, loop] at accepted
        cases accepted
      | ok aggregated => exact (known (foldlM_addVotingPower_ok loop)).elim
    · rintro ⟨allKnown, -⟩
      exact (known allKnown).elim

end ValidatorVerifier

end Diem
