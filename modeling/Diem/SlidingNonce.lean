import Diem.MoveRuntime
import Mathlib.Data.Nat.Bitwise

namespace Diem

open Move List

/-!
# Sliding nonces

`DPN/sources/SlidingNonce.move`: an account records the nonces of its transactions in a
window of 128 flags that only moves forward.  A nonce is recorded at most once, and refused
only if it lies before the window, too far after its start, or was recorded.
-/

/-- The flag at a position is that of the nonce `min_nonce` plus the position. -/
structure SlidingNonce where
  minNonce : Nat
  nonceMask : Nat
  deriving DecidableEq

namespace SlidingNonce

/-- The size of the window. -/
def nonceMaskSize : Nat := 128

/-- How far after the start of the window a nonce may lie. -/
def jumpLimit : Nat := 10000

variable (current : Option SlidingNonce) (window : SlidingNonce) (seqNonce : Nat)

/-- A window for an account that has none yet. -/
def publish : Move SlidingNonce := do
  assert (current = none) (.abort .slidingNonce .alreadyPublished 4)
  return ⟨0, 0⟩

/-- The amount of a shift of an unsigned 128-bit number. -/
def shiftAmount (amount : Nat) : Move Nat := do
  assert (amount < 128) .arithmeticError
  return amount

/-- Move the window until a nonce lies in it. -/
def moveTo : Move SlidingNonce := do
  let bitPos ← subU64 seqNonce window.minNonce
  if bitPos ≥ nonceMaskSize then
    let shift ← addU64 (← subU64 bitPos nonceMaskSize) 1
    if shift ≥ nonceMaskSize then
      return ⟨← subU64 (← addU64 seqNonce 1) nonceMaskSize, 0⟩
    else
      let nonceMask := window.nonceMask >>> (← shiftAmount shift)
      return ⟨← addU64 window.minNonce shift, nonceMask⟩
  else
    return window

/-- Set the flag of a nonce that lies in the window, unless it is set. -/
def setFlag : Move (Nat × SlidingNonce) := do
  let bitPos ← subU64 seqNonce window.minNonce
  let set := 1 <<< (← shiftAmount bitPos)
  if window.nonceMask &&& set ≠ 0 then
    return (3, window)
  else
    return (0, { window with nonceMask := window.nonceMask ||| set })

/-- Record a nonce; the answer is 0, or the reason why it is refused. -/
def tryRecordNonce : Move (Nat × Option SlidingNonce) := do
  if seqNonce = 0 then
    return (0, current)
  else
    assert (current.isSome = true) (.abort .slidingNonce .notPublished 0)
    let window ← borrowGlobal current
    if window.minNonce > seqNonce then
      return (1, current)
    else if (← addU64 window.minNonce jumpLimit) ≤ seqNonce then
      return (2, current)
    else
      let (code, window) ← setFlag (← moveTo window seqNonce) seqNonce
      return (code, some window)

/-- Record a nonce or abort with the reason. -/
def recordNonceOrAbort : Move (Option SlidingNonce) := do
  let (code, current) ← tryRecordNonce current seqNonce
  assert (code = 0) (.abort .slidingNonce .invalidArgument code)
  return current

/-- A call that answers with a reason or aborts with it. -/
structure Call where
  aborts : Bool
  seqNonce : Nat

/-- What a call that does not abort answers, and the window after it. -/
def Call.answer (call : Call) : Move (Nat × Option SlidingNonce) := do
  if call.aborts then
    return (0, ← recordNonceOrAbort (some window) call.seqNonce)
  else
    tryRecordNonce (some window) call.seqNonce

/-- A window and the nonces that were recorded in it. -/
structure History where
  window : SlidingNonce
  recorded : List Nat

def History.advance (history : History) (call : Call) : History :=
  match call.answer history.window with
  | .ok (code, some window) =>
    if code = 0 ∧ call.seqNonce ≠ 0 then
      ⟨window, call.seqNonce :: history.recorded⟩
    else
      { history with window }
  | _ => history

/-- The history after some calls on a new window. -/
def History.run (calls : List Call) : History :=
  calls.foldl History.advance ⟨⟨0, 0⟩, []⟩

/-- The flags show which nonces from the start of the window on were recorded. -/
structure Shows (recorded : List Nat) : Prop where
  flags : ∀ bit, window.nonceMask.testBit bit = true ↔ window.minNonce + bit ∈ recorded
  inside : ∀ nonce ∈ recorded, nonce < window.minNonce + nonceMaskSize

/-- Why a nonce is refused. -/
def Refuses (window : SlidingNonce) (recorded : List Nat) (seqNonce : Nat) : Prop :=
  seqNonce < window.minNonce ∨ window.minNonce + jumpLimit ≤ seqNonce ∨ seqNonce ∈ recorded

variable {window seqNonce} {after : SlidingNonce} {recorded : List Nat} {code : Nat}

section

variable (shows : window.Shows recorded)
include shows

theorem Shows.later (later : window.minNonce ≤ after.minNonce)
    (flags : ∀ bit, after.nonceMask.testBit bit = true ↔ after.minNonce + bit ∈ recorded) :
    after.Shows recorded :=
  ⟨flags, fun nonce member => (shows.inside nonce member).trans_le (Nat.add_le_add_right later _)⟩

/-- The window is moved to a nonce and keeps the flags that are still in it. -/
theorem Shows.moveTo (notOld : window.minNonce ≤ seqNonce) (fits : seqNonce + 1 ≤ maxU64) :
    ∃ moved, window.moveTo seqNonce = .ok moved ∧ moved.Shows recorded ∧
      window.minNonce ≤ moved.minNonce ∧ moved.minNonce ≤ seqNonce ∧
      seqNonce < moved.minNonce + nonceMaskSize := by
  have isSize : nonceMaskSize = 128 := rfl
  rw [SlidingNonce.moveTo, subU64_of_le notOld, ok_bind]
  by_cases outside : seqNonce - window.minNonce ≥ nonceMaskSize
  · obtain ⟨shift, isShift⟩ : ∃ shift, seqNonce + 1 = window.minNonce + shift + nonceMaskSize :=
      ⟨seqNonce + 1 - window.minNonce - nonceMaskSize, by omega⟩
    have sameShift : seqNonce - window.minNonce - nonceMaskSize + 1 = shift := by omega
    have place : window.minNonce + shift ≤ seqNonce := by omega
    have within : seqNonce < window.minNonce + shift + nonceMaskSize := by omega
    rw [if_pos outside, subU64_of_le outside, ok_bind, addU64_of_le (by omega), ok_bind, sameShift]
    by_cases far : shift ≥ nonceMaskSize
    · rw [if_pos far, addU64_of_le fits, ok_bind, subU64_of_le (by omega),
        isShift, Nat.add_sub_cancel]
      refine ⟨_, rfl, shows.later (Nat.le_add_right _ _) fun bit => ?_,
        Nat.le_add_right _ _, place, within⟩
      have absent : window.minNonce + shift + bit ∉ recorded := by
        intro member
        have bound := shows.inside _ member
        omega
      simp [absent]
    · rw [if_neg far, shiftAmount, assert_of (by omega), addU64_of_le (by omega)]
      refine ⟨_, rfl, shows.later (Nat.le_add_right _ _) fun bit => ?_,
        Nat.le_add_right _ _, place, within⟩
      rw [Nat.testBit_shiftRight, shows.flags, Nat.add_assoc]
  · rw [if_neg outside]
    exact ⟨window, rfl, shows, le_rfl, notOld, by omega⟩

/-- The flag of a nonce in the window is set unless the nonce was recorded. -/
theorem Shows.setFlag (notOld : window.minNonce ≤ seqNonce)
    (inside : seqNonce < window.minNonce + nonceMaskSize) :
    (seqNonce ∈ recorded ∧ window.setFlag seqNonce = .ok (3, window)) ∨
      (seqNonce ∉ recorded ∧
        ∃ flagged, window.setFlag seqNonce = .ok (0, flagged) ∧ flagged.minNonce = window.minNonce ∧
          flagged.Shows (seqNonce :: recorded)) := by
  obtain ⟨bit, rfl⟩ := Nat.exists_eq_add_of_le notOld
  have isSet : window.nonceMask &&& 2 ^ bit ≠ 0 ↔ window.minNonce + bit ∈ recorded := by
    rw [← shows.flags, Nat.and_two_pow]
    cases window.nonceMask.testBit bit <;> simp
  have small : bit < 128 := Nat.lt_of_add_lt_add_left inside
  rw [SlidingNonce.setFlag, subU64_of_le notOld, ok_bind, Nat.add_sub_cancel_left,
    shiftAmount, assert_of small]
  simp only [ok_bind, pure_bind, Nat.one_shiftLeft]
  by_cases member : window.minNonce + bit ∈ recorded
  · rw [if_pos (isSet.mpr member)]
    exact .inl ⟨member, rfl⟩
  · rw [if_neg (mt isSet.mp member)]
    refine .inr ⟨member, _, rfl, rfl, fun other => ?_, ?_⟩
    · rw [Nat.testBit_or, Bool.or_eq_true, shows.flags, Nat.testBit_two_pow,
        decide_eq_true_iff, mem_cons, Nat.add_left_cancel_iff, or_comm, eq_comm]
    · intro nonce isRecorded
      rcases mem_cons.mp isRecorded with rfl | old
      · exact inside
      · exact shows.inside nonce old

/-- A nonce is refused for cause or recorded, unless the limit of the jump overflows. -/
theorem Shows.tryRecordNonce (nonzero : seqNonce ≠ 0) :
    (maxU64 < window.minNonce + jumpLimit ∧
        tryRecordNonce (some window) seqNonce = .error .arithmeticError) ∨
      ∃ code after, tryRecordNonce (some window) seqNonce = .ok (code, some after) ∧
        window.minNonce ≤ after.minNonce ∧
        ((code ≠ 0 ∧ window.Refuses recorded seqNonce ∧ after.Shows recorded) ∨
          (code = 0 ∧ ¬ window.Refuses recorded seqNonce ∧
            after.Shows (seqNonce :: recorded))) := by
  rw [SlidingNonce.tryRecordNonce, if_neg nonzero, assert_of Option.isSome_some, ok_bind,
    borrowGlobal, ok_bind]
  by_cases old : window.minNonce > seqNonce
  · rw [if_pos old]
    exact .inr ⟨1, window, rfl, le_rfl, .inl ⟨by decide, .inl old, shows⟩⟩
  rw [if_neg old]
  by_cases overflow : maxU64 < window.minNonce + jumpLimit
  · rw [addU64, if_neg (not_le.mpr overflow)]
    exact .inl ⟨overflow, rfl⟩
  rw [addU64_of_le (not_lt.mp overflow), ok_bind]
  by_cases new : window.minNonce + jumpLimit ≤ seqNonce
  · rw [if_pos new]
    exact .inr ⟨2, window, rfl, le_rfl, .inl ⟨by decide, .inr (.inl new), shows⟩⟩
  obtain ⟨moved, isMoved, movedShows, later, notOld, inside⟩ :=
    shows.moveTo (not_lt.mp old) (by omega)
  rw [if_neg new, isMoved, ok_bind]
  rcases movedShows.setFlag notOld inside with
    ⟨member, isSet⟩ | ⟨absent, flagged, isSet, sameMin, flaggedShows⟩
  · rw [isSet]
    exact .inr ⟨3, moved, rfl, later, .inl ⟨by decide, .inr (.inr member), movedShows⟩⟩
  · rw [isSet]
    refine .inr ⟨0, flagged, rfl, sameMin ▸ later, .inr ⟨rfl, ?_, flaggedShows⟩⟩
    rintro (isOld | isNew | member)
    · exact old isOld
    · exact new isNew
    · exact absent member

end

theorem recordNonceOrAbort_eq {current : Option SlidingNonce}
    (answered : tryRecordNonce (some window) seqNonce = .ok (code, current)) :
    recordNonceOrAbort (some window) seqNonce =
      if code = 0 then .ok current
      else .error (.abort .slidingNonce .invalidArgument code) := by
  rw [recordNonceOrAbort, answered, ok_bind]
  by_cases recorded : code = 0 <;> simp [assert, recorded]

/-- The flags show the history, in which no nonce was recorded twice. -/
structure History.Sound (history : History) : Prop where
  shows : history.window.Shows history.recorded
  nodup : history.recorded.Nodup

/-- A call keeps the history sound and moves the window only forward. -/
theorem History.Sound.advance {history : History} (sound : history.Sound) (call : Call) :
    (history.advance call).Sound ∧
      history.window.minNonce ≤ (history.advance call).window.minNonce := by
  have same (kept : history.advance call = history) : (history.advance call).Sound ∧
        history.window.minNonce ≤ (history.advance call).window.minNonce := by
    rw [kept]
    exact ⟨sound, le_rfl⟩
  obtain ⟨aborts, seqNonce⟩ := call
  by_cases zero : seqNonce = 0
  · subst zero
    apply same
    cases aborts <;> rfl
  rcases sound.shows.tryRecordNonce zero with
    ⟨-, failed⟩ | ⟨code, after, answered, later, outcome⟩
  · apply same
    simp only [History.advance, Call.answer, recordNonceOrAbort, failed]
    cases aborts <;> rfl
  rcases outcome with ⟨refused, -, kept⟩ | ⟨rfl, fresh, kept⟩
  · cases aborts with
    | true =>
      apply same
      simp [History.advance, Call.answer, recordNonceOrAbort_eq answered, refused]
    | false =>
      have moved : history.advance ⟨false, seqNonce⟩ = { history with window := after } := by
        simp [History.advance, Call.answer, answered, refused]
      rw [moved]
      exact ⟨⟨kept, sound.nodup⟩, later⟩
  · have absent := mt (.inr ∘ Or.inr) fresh
    have recorded : history.advance ⟨aborts, seqNonce⟩ = ⟨after, seqNonce :: history.recorded⟩ := by
      cases aborts <;>
        simp [History.advance, Call.answer, recordNonceOrAbort_eq answered, answered, zero]
    rw [recorded]
    exact ⟨⟨kept, nodup_cons.mpr ⟨absent, sound.nodup⟩⟩, later⟩

/-- After any calls on a published window no nonce was recorded twice, the window moves
only forward, and a call refuses a nonce exactly for cause. -/
theorem recorded_once_and_refused_for_cause (calls : List Call) :
    publish none = .ok (History.run []).window ∧ (History.run calls).recorded.Nodup ∧
      (∀ call, (History.run calls).window.minNonce ≤
        ((History.run calls).advance call).window.minNonce) ∧
      ∀ seqNonce, seqNonce ≠ 0 → (History.run calls).window.minNonce + 10000 < 2 ^ 64 →
        ∃ code current,
          tryRecordNonce (some (History.run calls).window) seqNonce = .ok (code, current) ∧
          (code ≠ 0 ↔ (History.run calls).window.Refuses (History.run calls).recorded seqNonce) ∧
          recordNonceOrAbort (some (History.run calls).window) seqNonce =
            if code = 0 then .ok current
            else .error (.abort .slidingNonce .invalidArgument code) := by
  have started : History.Sound ⟨⟨0, 0⟩, []⟩ := ⟨⟨by simp, by simp⟩, nodup_nil⟩
  have sound : (History.run calls).Sound :=
    foldlRecOn calls _ started fun _ sound call _ => (sound.advance call).1
  refine ⟨rfl, sound.nodup, fun call => (sound.advance call).2, ?_⟩
  intro seqNonce nonzero fits
  obtain ⟨code, after, answered, _, outcome⟩ :=
    (sound.shows.tryRecordNonce nonzero).resolve_left fun failed =>
      absurd failed.1 (not_lt.mpr (Nat.le_sub_one_of_lt fits))
  refine ⟨code, some after, answered, ?_, recordNonceOrAbort_eq answered⟩
  rcases outcome with ⟨refused, cause, _⟩ | ⟨recorded, fresh, _⟩
  · exact iff_of_true refused cause
  · exact iff_of_false (not_not.mpr recorded) fresh

end SlidingNonce

end Diem
