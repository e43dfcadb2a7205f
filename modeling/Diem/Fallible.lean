import Mathlib.Tactic.Common

namespace Diem

open List

/-!
# Computations that return an error or panic

A fallible function of the source either returns, returns an error, or panics.
Errors and panics are kept apart: an error is part of a function's contract, a
panic ends the process.
-/

/-- How a computation fails, with the text it reports. -/
inductive Failure where
  | error (message : String)
  | panic (message : String)
  deriving DecidableEq, Repr

/-- The result of a computation that can return an error or panic. -/
abbrev Fallible := Except Failure

namespace Fallible

variable {α β : Type} (condition : Prop)

/-- Return an error unless the condition holds. -/
def ensure [Decidable condition] (message : String) : Fallible Unit :=
  if condition then .ok () else .error (.error message)

/-- Panic unless the condition holds. -/
def require [Decidable condition] (message : String) : Fallible Unit :=
  if condition then .ok () else .error (.panic message)

/-- Take the value of an option, or panic. -/
def expect (value : Option α) (message : String) : Fallible α :=
  match value with
  | some found => .ok found
  | none => .error (.panic message)

/-- Take the value of an option, or return an error. -/
def okOr (value : Option α) (message : String) : Fallible α :=
  match value with
  | some found => .ok found
  | none => .error (.error message)

/-- Turn an error into a panic. -/
def unwrap (result : Fallible α) (message : String) : Fallible α :=
  match result with
  | .ok value => .ok value
  | .error _ => .error (.panic message)

/-- Replace the text of an error, as a context added to it does. -/
def context (result : Fallible α) (message : String) : Fallible α :=
  match result with
  | .error (.error _) => .error (.error message)
  | .error (.panic text) => .error (.panic text)
  | .ok value => .ok value

/-- Check an optional value if there is one. -/
def whenSome (value? : Option α) (check : α → Fallible Unit) : Fallible Unit :=
  match value? with
  | none => .ok ()
  | some value => check value

variable {ε : Type} {result : β}

theorem bind_eq_ok_iff {computation : Except ε α} {next : α → Except ε β} :
    (computation >>= next) = .ok result ↔
      ∃ value, computation = .ok value ∧ next value = .ok result := by
  cases computation with
  | error failure => simp [bind, Except.bind]
  | ok value => simp [bind, Except.bind]

/-- A check followed by a computation returns when the check passes. -/
theorem check_eq_ok_iff {check : Except ε Unit} {next : Unit → Except ε β} :
    (check >>= next) = .ok result ↔ check = .ok () ∧ next () = .ok result := by
  rw [bind_eq_ok_iff]
  constructor
  · rintro ⟨⟨⟩, passed, returned⟩
    exact ⟨passed, returned⟩
  · rintro ⟨passed, returned⟩
    exact ⟨(), passed, returned⟩

@[simp] theorem ok_bind (value : α) (next : α → Fallible β) :
    ((.ok value : Fallible α) >>= next) = next value :=
  rfl

variable {message : String}

@[simp] theorem ensure_eq_ok_iff {condition : Prop} [Decidable condition] :
    ensure condition message = .ok () ↔ condition := by
  by_cases holds : condition <;> simp [ensure, holds]

@[simp] theorem require_eq_ok_iff {condition : Prop} [Decidable condition] :
    require condition message = .ok () ↔ condition := by
  by_cases holds : condition <;> simp [require, holds]

variable {value? : Option α} {value : α}

@[simp] theorem expect_eq_ok_iff : expect value? message = .ok value ↔ value? = some value := by
  cases value? <;> simp [expect]

@[simp] theorem okOr_eq_ok_iff : okOr value? message = .ok value ↔ value? = some value := by
  cases value? <;> simp [okOr]

theorem unwrap_eq_ok_iff {result : Fallible α} :
    unwrap result message = .ok value ↔ result = .ok value := by
  cases result <;> simp [unwrap]

@[simp] theorem context_eq_ok_iff {result : Fallible α} :
    context result message = .ok value ↔ result = .ok value := by
  rcases result with (_ | _) | _ <;> simp [context]

@[simp] theorem whenSome_eq_ok_iff {check : α → Fallible Unit} :
    whenSome value? check = .ok () ↔ ∀ value, value? = some value → check value = .ok () := by
  cases value? <;> simp [whenSome]

variable {items : List α}

theorem forM_eq_ok_iff {body : α → Except ε Unit} :
    forM items body = .ok () ↔ ∀ item ∈ items, body item = .ok () := by
  induction items with
  | nil => simp [pure, Except.pure]
  | cons item rest ih =>
    rw [forM_cons, check_eq_ok_iff, ih]
    simp

/-- Each result of a loop that collects results comes from one of the items. -/
theorem exists_of_mem_mapM {body : α → Except ε β} {results : List β}
    (returned : items.mapM body = .ok results) (member : result ∈ results) :
    ∃ item ∈ items, body item = .ok result := by
  induction items generalizing results with
  | nil =>
    cases returned
    cases member
  | cons item rest ih =>
    rw [mapM_cons] at returned
    obtain ⟨first, firstReturned, later⟩ := bind_eq_ok_iff.mp returned
    obtain ⟨others, othersReturned, same⟩ := bind_eq_ok_iff.mp later
    cases same
    rcases mem_cons.mp member with rfl | other
    · exact ⟨item, mem_cons_self, firstReturned⟩
    · obtain ⟨source, inRest, sourceReturned⟩ := ih othersReturned other
      exact ⟨source, mem_cons_of_mem _ inRest, sourceReturned⟩

/-- The computation returns or reports an error. -/
def NoPanic (result : Fallible α) : Prop :=
  ∀ message, result ≠ .error (.panic message)

theorem noPanic_ok (value : α) : NoPanic (.ok value) := by
  intro message panicked
  cases panicked

theorem noPanic_error (message : String) : NoPanic (.error (.error message) : Fallible α) := by
  intro other panicked
  cases panicked

theorem noPanic_ensure [Decidable condition] (message : String) :
    NoPanic (ensure condition message) := by
  unfold ensure
  split
  · exact noPanic_ok ()
  · exact noPanic_error message

/-- A sequence does not panic if none of its parts does. -/
theorem NoPanic.bind {computation : Fallible α} {next : α → Fallible β}
    (first : NoPanic computation)
    (second : ∀ value, computation = .ok value → NoPanic (next value)) :
    NoPanic (computation >>= next) := by
  cases computation with
  | error failure =>
    intro message panicked
    cases panicked
    exact first message rfl
  | ok value => exact second value rfl

/-- A loop does not panic if no iteration does. -/
theorem noPanic_forM {body : α → Fallible Unit} (each : ∀ item ∈ items, NoPanic (body item)) :
    NoPanic (forM items body) := by
  induction items with
  | nil => exact noPanic_ok ()
  | cons item rest ih =>
    refine .bind (each item mem_cons_self) fun _ _ => ?_
    exact ih fun other member => each other (mem_cons_of_mem _ member)

end Fallible

end Diem
