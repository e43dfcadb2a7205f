import Diem.Fallible

namespace Diem

/-!
# Aborting Move code

Move functions return a value or abort, and an aborted call has no effect.  An abort
carries the module that raised it and a code made of a category and a reason
(`move-stdlib/sources/Errors.move`).  Unsigned 64-bit numbers are natural numbers whose
operations abort when the result does not fit.
-/

/-- The modules whose aborts are told apart. -/
inductive MoveModule where
  | bitVector
  | chainId
  | crsn
  | diem
  | diemAccount
  | diemTimestamp
  | networkIdentity
  | slidingNonce
  | transactionFee
  deriving DecidableEq

/-- The categories of abort codes. -/
inductive ErrorCategory where
  | invalidState
  | requiresAddress
  | requiresRole
  | requiresCapability
  | notPublished
  | alreadyPublished
  | invalidArgument
  | limitExceeded
  | internal
  | custom
  deriving DecidableEq

/-- Why a call aborts. -/
inductive MoveAbort where
  | abort (location : MoveModule) (category : ErrorCategory) (reason : Nat)
  | arithmeticError
  | missingData
  deriving DecidableEq

/-- A Move computation returns or aborts. -/
abbrev Move := Except MoveAbort

namespace Move

/-- The largest unsigned 64-bit number. -/
def maxU64 : Nat := 18446744073709551615

/-- Abort unless a condition holds. -/
def assert (condition : Prop) [Decidable condition] (abort : MoveAbort) : Move Unit :=
  if condition then
    .ok ()
  else
    .error abort

/-- Addition of unsigned 64-bit numbers. -/
def addU64 (first second : Nat) : Move Nat :=
  if first + second ≤ maxU64 then
    .ok (first + second)
  else
    .error .arithmeticError

/-- Subtraction of unsigned numbers. -/
def subU64 (first second : Nat) : Move Nat :=
  if second ≤ first then
    .ok (first - second)
  else
    .error .arithmeticError

/-- Multiplication of unsigned 64-bit numbers. -/
def mulU64 (first second : Nat) : Move Nat :=
  if first * second ≤ maxU64 then
    .ok (first * second)
  else
    .error .arithmeticError

/-- Read a resource that has to be there. -/
def borrowGlobal {α : Type} (resource? : Option α) : Move α :=
  match resource? with
  | some resource => .ok resource
  | none => .error .missingData

@[simp] theorem assert_eq_ok_iff {condition : Prop} [Decidable condition] {abort : MoveAbort} :
    assert condition abort = .ok () ↔ condition := by
  by_cases holds : condition <;> simp [assert, holds]

theorem assert_of {condition : Prop} [Decidable condition] (holds : condition) (abort : MoveAbort) :
    assert condition abort = .ok () :=
  assert_eq_ok_iff.mpr holds

variable {first second : Nat}

@[simp] theorem addU64_eq_ok_iff {result : Nat} :
    addU64 first second = .ok result ↔ first + second = result ∧ first + second ≤ maxU64 := by
  by_cases fits : first + second ≤ maxU64 <;> simp [addU64, fits]

theorem addU64_of_le (fits : first + second ≤ maxU64) :
    addU64 first second = .ok (first + second) :=
  if_pos fits

@[simp] theorem subU64_eq_ok_iff {result : Nat} :
    subU64 first second = .ok result ↔ first - second = result ∧ second ≤ first := by
  by_cases fits : second ≤ first <;> simp [subU64, fits]

theorem subU64_of_le (fits : second ≤ first) : subU64 first second = .ok (first - second) :=
  if_pos fits

theorem mulU64_of_le (fits : first * second ≤ maxU64) :
    mulU64 first second = .ok (first * second) :=
  if_pos fits

@[simp] theorem borrowGlobal_eq_ok_iff {α : Type} {resource? : Option α} {resource : α} :
    borrowGlobal resource? = .ok resource ↔ resource? = some resource := by
  cases resource? <;> simp [borrowGlobal]

@[simp] theorem ok_bind {α β : Type} (value : α) (next : α → Move β) :
    ((.ok value : Move α) >>= next) = next value :=
  rfl

end Move

end Diem
