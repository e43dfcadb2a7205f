import Diem.MoveRuntime
import Diem.SwapRemove
import Mathlib.Data.List.Nodup
import Mathlib.Data.List.Perm.Subperm

namespace Diem

open Fallible (bind_eq_ok_iff check_eq_ok_iff)
open Move List

/-!
# Network identities

`DPN/sources/NetworkIdentity.move`: an account keeps the identities it uses on the network
in a vector.  Over any calls the vector is a set, and an event tells each change of it.
-/

namespace NetworkIdentity

abbrev Identity := List UInt8

/-- The event that a change emits. -/
structure ChangeNotification where
  account : Nat
  identities : List Identity
  timeRotatedSeconds : Nat
  deriving DecidableEq

/-- The identities each account published, and the events emitted to the handle. -/
structure State where
  identities : Nat → Option (List Identity)
  identityChangeEvents : Option (List ChangeNotification)

def maxAddrIdentities : Nat := 100

section Members

variable {α : Type} [DecidableEq α]

/-- Append an entry that is not contained. -/
def addMember (members : List α) (entry : α) : List α :=
  if entry ∈ members then members else members ++ [entry]

/-- Add to a vector each entry that it does not contain, and tell whether it grew. -/
def addMembersInternal (members toAdd : List α) : List α × Bool :=
  let after := toAdd.foldl addMember members
  (after, after.length > members.length)

/-- Remove an entry that is contained. -/
def removeMember (members : List α) (entry : α) : List α :=
  match members.idxOf? entry with
  | some index => swapRemove members index
  | none => members

/-- Remove from a vector each entry that it contains, and tell whether it shrank. -/
def removeMembersInternal (members toRemove : List α) : List α × Bool :=
  let after := toRemove.foldl removeMember members
  (after, after.length < members.length)

end Members

section Calls

variable (state : State) (now : Option Nat) (account : Nat)

/-- The seconds since the start, from the microseconds of an operating chain. -/
def nowSeconds : Move Nat := do
  assert (now.isSome = true) (.abort .diemTimestamp .invalidState 1)
  return (← borrowGlobal now) / 1000000

/-- Store the identities of an account and emit their event if they changed. -/
def rotate (changed : List Identity × Bool) : Move State := do
  let state := { state with identities := Function.update state.identities account changed.1 }
  if changed.2 then
    let events ← borrowGlobal state.identityChangeEvents
    let notification := ⟨account, changed.1, ← nowSeconds now⟩
    return { state with identityChangeEvents := some (events ++ [notification]) }
  else
    return state

/-- Add some identities to those of an account. -/
def addIdentities (toAdd : List Identity) : Move State := do
  assert (state.identityChangeEvents.isSome = true) (.abort .networkIdentity .notPublished 3)
  assert (toAdd.length > 0) (.abort .networkIdentity .invalidArgument 2)
  let identities := (state.identities account).getD []
  assert ((← addU64 identities.length toAdd.length) ≤ maxAddrIdentities)
    (.abort .networkIdentity .limitExceeded 1)
  rotate state now account (addMembersInternal identities toAdd)

/-- Remove some identities of an account. -/
def removeIdentities (toRemove : List Identity) : Move State := do
  assert (state.identityChangeEvents.isSome = true) (.abort .networkIdentity .notPublished 3)
  assert (toRemove.length > 0) (.abort .networkIdentity .invalidArgument 2)
  assert (toRemove.length ≤ maxAddrIdentities) (.abort .networkIdentity .limitExceeded 1)
  assert ((state.identities account).isSome = true) (.abort .networkIdentity .notPublished 0)
  let identities ← borrowGlobal (state.identities account)
  rotate state now account (removeMembersInternal identities toRemove)

end Calls

inductive Action where
  | addIdentities
  | removeIdentities

/-- A call of an account at some time. -/
structure Call where
  now : Option Nat
  account : Nat
  action : Action
  entries : List Identity

/-- What a call does. -/
def Call.execute (state : State) (call : Call) : Move State :=
  match call.action with
  | .addIdentities => addIdentities state call.now call.account call.entries
  | .removeIdentities => removeIdentities state call.now call.account call.entries

/-- The state after a call, which an abort leaves as it was. -/
def State.advance (state : State) (call : Call) : State :=
  match call.execute state with
  | .ok after => after
  | .error _ => state

/-- The state after some calls, if no account had identities before. -/
def State.run (events : Option (List ChangeNotification)) (calls : List Call) : State :=
  calls.foldl State.advance ⟨fun _ => none, events⟩

/-- The identities of an account. -/
def State.of (state : State) (account : Nat) : List Identity :=
  (state.identities account).getD []

/-- The union or difference of a set and the entries of a call. -/
def Call.Keeps (call : Call) (members : List Identity) (entry : Identity) : Prop :=
  match call.action with
  | .addIdentities => entry ∈ members ∨ entry ∈ call.entries
  | .removeIdentities => entry ∈ members ∧ entry ∉ call.entries

section Members

variable {α : Type} {members : List α}

/-- A set grows exactly if it changes. -/
theorem length_lt_iff_changed {smaller larger : List α} (nodupSmaller : smaller.Nodup)
    (nodupLarger : larger.Nodup) (within : smaller ⊆ larger) :
    smaller.length < larger.length ↔ ¬ ∀ entry, entry ∈ smaller ↔ entry ∈ larger := by
  have subperm := subperm_of_subset nodupSmaller within
  rw [← Nat.not_le, not_iff_not, ← perm_ext_iff_of_nodup nodupSmaller nodupLarger]
  exact ⟨subperm.perm_of_length_le, fun same => Nat.le_of_eq same.length_eq.symm⟩

variable [DecidableEq α]

section

variable (nodup : members.Nodup)
include nodup

theorem addMember_spec (added : α) :
    (addMember members added).Nodup ∧
      ∀ entry, entry ∈ addMember members added ↔ entry ∈ members ∨ entry = added := by
  rw [addMember]
  by_cases present : added ∈ members
  · rw [if_pos present]
    refine ⟨nodup, fun entry => ⟨.inl, ?_⟩⟩
    rintro (member | rfl) <;> assumption
  · rw [if_neg present]
    exact ⟨concat_eq_append ▸ nodup.concat present, by simp⟩

theorem foldl_addMember_spec (toAdd : List α) :
    (toAdd.foldl addMember members).Nodup ∧
      ∀ entry, entry ∈ toAdd.foldl addMember members ↔ entry ∈ members ∨ entry ∈ toAdd := by
  induction toAdd generalizing members with
  | nil => simp [nodup]
  | cons added toAdd ih =>
      obtain ⟨nodupNext, memberNext⟩ := addMember_spec nodup added
      obtain ⟨isNodup, isMember⟩ := ih nodupNext
      refine ⟨isNodup, fun entry => ?_⟩
      rw [foldl_cons, isMember, memberNext, mem_cons, or_assoc]

theorem removeMember_spec (removed : α) :
    (removeMember members removed).Nodup ∧
      ∀ entry, entry ∈ removeMember members removed ↔ entry ∈ members ∧ entry ≠ removed := by
  rw [removeMember]
  cases found : members.idxOf? removed with
  | none =>
      have absent := idxOf?_eq_none_iff.mp found
      refine ⟨nodup, fun entry => ⟨fun member => ⟨member, ?_⟩, And.left⟩⟩
      rintro rfl
      exact absent member
  | some index =>
      obtain ⟨inside, isEntry, _⟩ := idxOf?_eq_some_iff.mp found
      have perm := swapRemove_perm (List.getElem?_eq_some_iff.mpr ⟨inside, isEntry⟩)
      obtain ⟨absent, isNodup⟩ := nodup_cons.mp (perm.nodup_iff.mp nodup)
      refine ⟨isNodup, fun entry => ?_⟩
      rw [perm.mem_iff, mem_cons]
      constructor
      · intro member
        exact ⟨.inr member, fun same => absent (same ▸ member)⟩
      · rintro ⟨isRemoved | member, other⟩
        · exact (other isRemoved).elim
        · exact member

theorem foldl_removeMember_spec (toRemove : List α) :
    (toRemove.foldl removeMember members).Nodup ∧
      ∀ entry, entry ∈ toRemove.foldl removeMember members ↔
        entry ∈ members ∧ entry ∉ toRemove := by
  induction toRemove generalizing members with
  | nil => simp [nodup]
  | cons removed toRemove ih =>
      obtain ⟨nodupNext, memberNext⟩ := removeMember_spec nodup removed
      obtain ⟨isNodup, isMember⟩ := ih nodupNext
      refine ⟨isNodup, fun entry => ?_⟩
      rw [foldl_cons, isMember, memberNext, mem_cons, not_or, and_assoc]

end

end Members

variable {state after : State} {call : Call}

/-- What a call that does not abort does to the identities and the events. -/
structure Call.Changes (call : Call) (state after : State) : Prop where
  nodup : (after.of call.account).Nodup
  bounded : (after.of call.account).length ≤ 100
  members : ∀ entry, entry ∈ after.of call.account ↔ call.Keeps (state.of call.account) entry
  others : ∀ other ≠ call.account, after.identities other = state.identities other
  silent : (∀ entry, entry ∈ state.of call.account ↔ entry ∈ after.of call.account) →
    after.identityChangeEvents = state.identityChangeEvents
  notified : (¬ ∀ entry, entry ∈ state.of call.account ↔ entry ∈ after.of call.account) →
    ∃ events seconds, state.identityChangeEvents = some events ∧ nowSeconds call.now = .ok seconds ∧
      after.identityChangeEvents = some (events ++ [⟨call.account, after.of call.account, seconds⟩])

variable {changed : List Identity × Bool}

theorem rotate_ok {now : Option Nat} {account : Nat}
    (rotated : rotate state now account changed = .ok after) :
    after.identities = Function.update state.identities account (some changed.1) ∧
      (changed.2 = false → after.identityChangeEvents = state.identityChangeEvents) ∧
      (changed.2 = true →
        ∃ events seconds, state.identityChangeEvents = some events ∧ nowSeconds now = .ok seconds ∧
          after.identityChangeEvents = some (events ++ [⟨account, changed.1, seconds⟩])) := by
  cases flag : changed.2 with
  | false =>
      simp only [rotate, flag] at rotated
      cases rotated
      exact ⟨rfl, fun _ => rfl, nofun⟩
  | true =>
      simp only [rotate, flag, if_true] at rotated
      obtain ⟨events, published, rotated⟩ := bind_eq_ok_iff.mp rotated
      obtain ⟨seconds, read, rotated⟩ := bind_eq_ok_iff.mp rotated
      cases rotated
      exact ⟨rfl, nofun, fun _ => ⟨events, seconds, borrowGlobal_eq_ok_iff.mp published, read, rfl⟩⟩

theorem Call.Changes.of_rotate (rotated : rotate state call.now call.account changed = .ok after)
    (nodup : changed.1.Nodup) (bounded : changed.1.length ≤ 100)
    (members : ∀ entry, entry ∈ changed.1 ↔ call.Keeps (state.of call.account) entry)
    (flag : changed.2 = true ↔ ¬ ∀ entry, entry ∈ state.of call.account ↔ entry ∈ changed.1) :
    call.Changes state after := by
  obtain ⟨stored, notified⟩ := rotate_ok rotated
  have isStored : after.of call.account = changed.1 := by simp [State.of, stored]
  rw [← isStored] at nodup bounded members flag
  refine ⟨nodup, bounded, members, ?_, ?_, ?_⟩
  · intro other differs
    rw [stored, Function.update_of_ne differs]
  · intro same
    exact notified.1 (by simpa using mt flag.mp (not_not.mpr same))
  · intro differs
    exact isStored ▸ notified.2 (flag.mpr differs)

/-- Every account has a set of at most 100 identities. -/
def State.Valid (state : State) : Prop :=
  ∀ account, (state.of account).Nodup ∧ (state.of account).length ≤ 100

theorem Call.Changes.of_execute (valid : state.Valid) (executed : call.execute state = .ok after) :
    call.Changes state after := by
  obtain ⟨now, account, action, entries⟩ := call
  obtain ⟨nodup, bounded⟩ := valid account
  cases action with
  | addIdentities =>
      obtain ⟨-, executed⟩ := check_eq_ok_iff.mp executed
      obtain ⟨-, executed⟩ := check_eq_ok_iff.mp executed
      obtain ⟨sum, isSum, executed⟩ := bind_eq_ok_iff.mp executed
      obtain ⟨small, rotated⟩ := check_eq_ok_iff.mp executed
      obtain ⟨isNodup, members⟩ := foldl_addMember_spec nodup entries
      obtain ⟨rfl, -⟩ := addU64_eq_ok_iff.mp isSum
      have within : entries.foldl addMember (state.of account) ⊆ state.of account ++ entries :=
        fun entry added => mem_append.mpr ((members entry).mp added)
      have bound := (subperm_of_subset isNodup within).length_le
      rw [length_append] at bound
      refine .of_rotate rotated isNodup (bound.trans (assert_eq_ok_iff.mp small)) members ?_
      exact decide_eq_true_iff.trans
        (length_lt_iff_changed nodup isNodup fun entry old => (members entry).mpr (.inl old))
  | removeIdentities =>
      simp only [Call.execute, removeIdentities, check_eq_ok_iff] at executed
      obtain ⟨-, -, -, -, executed⟩ := executed
      obtain ⟨identities, published, rotated⟩ := bind_eq_ok_iff.mp executed
      have isOld : state.of account = identities := by
        simp [State.of, borrowGlobal_eq_ok_iff.mp published]
      subst isOld
      obtain ⟨isNodup, members⟩ := foldl_removeMember_spec nodup entries
      have within : entries.foldl removeMember (state.of account) ⊆ state.of account :=
        fun entry kept => ((members entry).mp kept).1
      refine .of_rotate rotated isNodup
        (Nat.le_trans (subperm_of_subset isNodup within).length_le bounded) members ?_
      refine decide_eq_true_iff.trans ((length_lt_iff_changed isNodup nodup within).trans ?_)
      exact not_congr (forall_congr' fun entry => iff_comm)

theorem State.Valid.advance (valid : state.Valid) (call : Call) : (state.advance call).Valid := by
  rw [State.advance]
  cases executed : call.execute state with
  | error => exact valid
  | ok after =>
      have changes := Call.Changes.of_execute valid executed
      intro account
      by_cases own : account = call.account
      · exact own ▸ ⟨changes.nodup, changes.bounded⟩
      · rw [State.of, changes.others account own]
        exact valid account

/-- After any calls the identities of an account are a set of at most 100, a further call
that returns changes them as it says, and one that aborts changes nothing. -/
theorem identities_are_sets (events : Option (List ChangeNotification)) (calls : List Call) :
    (State.run events calls).Valid ∧
      ∀ call : Call, (∀ after, call.execute (.run events calls) = .ok after →
        call.Changes (.run events calls) after) ∧
        (∀ abort, call.execute (.run events calls) = .error abort →
          (State.run events calls).advance call = State.run events calls) := by
  have start : State.Valid ⟨fun _ => none, events⟩ := fun _ => ⟨nodup_nil, Nat.zero_le _⟩
  have valid : (State.run events calls).Valid :=
    foldlRecOn calls _ start fun _ valid call _ => valid.advance call
  refine ⟨valid, fun call => ⟨fun after => .of_execute valid, ?_⟩⟩
  intro abort aborted
  rw [State.advance, aborted]

end NetworkIdentity

end Diem
