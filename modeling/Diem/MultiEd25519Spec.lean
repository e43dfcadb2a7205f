import Diem.BitFlags
import Diem.MultiEd25519

namespace Diem

open Fallible (ensure expect noPanic_error ok_bind)
open List

/-!
# What a multi-key signature proves

The bitmap is a list of 32 flags, and checking a signature goes over the positions of
the set flags and the list of signatures in step.  The check neither compares the two
lengths nor the positions with the number of keys.
-/

namespace MultiEd25519

open BitFlags

section Bytes

variable (byte : BitVec 8)

/-- The bits of a byte from the left. -/
def byteFlags : List Bool :=
  (range 8).map fun position => byte.getMsbD position

@[simp] theorem length_byteFlags : (byteFlags byte).length = 8 := by
  simp [byteFlags]

theorem byte_get (position : Fin 8) :
    some (byte &&& bitMask position != 0) = (byteFlags byte)[position.val]? := by
  revert byte position
  decide +kernel

theorem byte_set (position : Fin 8) :
    byteFlags (byte ||| bitMask position) = (byteFlags byte).set position true := by
  have masks : ∀ index < 8, (bitMask position).getMsbD index = decide (position.val = index) := by
    revert position
    decide
  refine ext_getElem (by simp) fun index inside _ => ?_
  have mask := masks index (by simpa using inside)
  rw [getElem_set]
  simp only [byteFlags, getElem_map, getElem_range, BitVec.getMsbD_or, mask]
  split_ifs with same <;> simp [same]

theorem byte_countOnes : countOnes byte = (byteFlags byte).count true := by
  revert byte
  decide +kernel

theorem byte_eq_zero : byte = 0 ↔ true ∉ byteFlags byte := by
  revert byte
  decide +kernel

theorem getElem?_flatMap_byteFlags (bytes : List (BitVec 8)) (index : Nat) :
    (bytes.flatMap byteFlags)[index]? =
      bytes[index / 8]?.bind fun byte => (byteFlags byte)[index % 8]? := by
  induction bytes generalizing index with
  | nil => simp
  | cons byte bytes ih =>
    rw [flatMap_cons, getElem?_append, length_byteFlags]
    split
    · rename_i inside
      rw [Nat.div_eq_of_lt inside, Nat.mod_eq_of_lt inside]
      rfl
    · obtain ⟨rest, rfl⟩ : ∃ rest, index = rest + 8 := ⟨index - 8, by omega⟩
      rw [Nat.add_sub_cancel, ih, show (rest + 8) / 8 = rest / 8 + 1 by omega,
        show (rest + 8) % 8 = rest % 8 by omega, getElem?_cons_succ]

theorem flatMap_byteFlags_set {bytes : List (BitVec 8)} {bucket : Nat} {byte : BitVec 8}
    (found : bytes[bucket]? = some byte) (position : Fin 8) :
    (bytes.set bucket (byte ||| bitMask position)).flatMap byteFlags =
      (bytes.flatMap byteFlags).set (8 * bucket + position) true := by
  induction bytes generalizing bucket with
  | nil => simp at found
  | cons first bytes ih =>
    cases bucket with
    | zero =>
      cases found
      rw [set_cons_zero, flatMap_cons, flatMap_cons, byte_set, Nat.mul_zero, Nat.zero_add,
        set_append_left _ _ (by simp)]
    | succ bucket =>
      rw [set_cons_succ, flatMap_cons, flatMap_cons, ih found,
        set_append_right _ _ (by simp; omega), length_byteFlags]
      congr 2
      omega

end Bytes

section Bitmaps

def flags (bitmap : KeyBitmap) : List Bool :=
  bitmap.toList.flatMap byteFlags

/-- The positions of the keys that signed. -/
def setBits (bitmap : KeyBitmap) : List Nat :=
  positions (flags bitmap)

section

variable (bitmap : KeyBitmap)
include bitmap

theorem length_flags : (flags bitmap).length = 32 := by
  have bytes : bitmap.toList.length = 4 := Vector.length_toList
  rw [flags, length_flatMap]
  simp [bytes]

theorem bitmapGetBit_eq (index : Nat) :
    bitmapGetBit bitmap index =
      match (flags bitmap)[index]? with
      | some flag => .ok flag
      | none => .error (outOfBounds (index / 8)) := by
  rw [bitmapGetBit, flags, getElem?_flatMap_byteFlags]
  split
  · rename_i inside
    have position : index - index / 8 * 8 = index % 8 := by omega
    have found : bitmap.toList[index / 8]? = some bitmap[index / 8] := by simp [inside]
    have bit := byte_get bitmap[index / 8] ⟨index % 8, Nat.mod_lt _ (by decide)⟩
    rw [found, Option.bind_some, ← bit, position]
  · rename_i outside
    have missing : bitmap.toList[index / 8]? = none := by
      rw [getElem?_eq_none_iff, Vector.length_toList]
      exact Nat.le_of_not_lt outside
    rw [missing]
    rfl

/-- Setting a bit inside the bitmap sets its flag. -/
theorem bitmapSetBit_eq {index : Nat} (inside : index < 32) :
    ∃ bitmap',
      bitmapSetBit bitmap index = .ok bitmap' ∧ flags bitmap' = (flags bitmap).set index true := by
  have bucket : index / 8 < bitmapNumOfBytes := by
    rw [bitmapNumOfBytes]
    omega
  refine ⟨_, dif_pos bucket, ?_⟩
  have found : bitmap.toList[index / 8]? = some bitmap[index / 8] := by simp [bucket]
  have set := flatMap_byteFlags_set found ⟨index % 8, Nat.mod_lt _ (by decide)⟩
  rw [flags, flags, Vector.toList_set]
  have position : index - index / 8 * 8 = index % 8 := by omega
  rw [position, set]
  congr 1
  dsimp only
  omega

theorem bitmapCountOnes_eq : bitmapCountOnes bitmap = (setBits bitmap).length := by
  rw [setBits, length_positions, bitmapCountOnes, flags, count_flatMap]
  congr 1
  exact map_congr_left fun byte _ => byte_countOnes byte

theorem bitmapLastSetBit_eq_none_iff : bitmapLastSetBit bitmap = none ↔ setBits bitmap = [] := by
  have empty : setBits bitmap = [] ↔ ∀ byte ∈ bitmap.toList, byte = 0 := by
    rw [← length_eq_zero_iff, setBits, length_positions, count_eq_zero, flags, mem_flatMap]
    simp only [byte_eq_zero, not_exists, not_and]
  rw [empty, bitmapLastSetBit, Option.map_eq_none_iff, find?_eq_none]
  constructor
  · intro zeros byte member
    obtain ⟨index, found⟩ := mem_iff_getElem?.mp (mem_reverse.mpr member)
    have zero := zeros (byte, index) (mk_mem_zipIdx_iff_getElem?.mpr found)
    simpa using zero
  · intro zeros entry member
    have found := mem_zipIdx_iff_getElem?.mp member
    have inBitmap := mem_reverse.mp (mem_of_getElem? found)
    simp [zeros entry.1 inBitmap]

end

end Bitmaps

section Verification

variable {Message : Type} {scheme : Ed25519 Message}

namespace MultiEd25519Signature

variable {index : Nat}

/-- The search for the next set bit. -/
theorem nextSetBit_eq (bitmap : KeyBitmap) {steps : Nat} (inside : index ≤ 32)
    (enough : 33 ≤ steps + index) :
    nextSetBit bitmap steps index =
      match positionsFrom index ((flags bitmap).drop index) with
      | position :: _ => .ok position
      | [] => .error (outOfBounds 4) := by
  induction steps generalizing index with
  | zero => omega
  | succ steps ih =>
    rw [nextSetBit, bitmapGetBit_eq]
    rcases Nat.lt_or_ge index 32 with less | last
    · have bound : index < (flags bitmap).length := by
        rw [length_flags]
        exact less
      rw [drop_eq_getElem_cons bound, getElem?_eq_getElem bound]
      cases (flags bitmap)[index] with
      | true => rfl
      | false => exact ih less (by omega)
    · obtain rfl : index = 32 := by omega
      have ended : (flags bitmap).length ≤ 32 := Nat.le_of_eq (length_flags bitmap)
      rw [drop_eq_nil_of_le ended, getElem?_eq_none ended]
      rfl

/-- The flags after a set one. -/
theorem positionsFrom_tail {all : List Bool} {position : Nat} {rest : List Nat}
    (shape : positionsFrom index (all.drop index) = position :: rest) :
    position < all.length ∧ rest = positionsFrom (position + 1) (all.drop (position + 1)) := by
  generalize remaining : all.length - index = left
  induction left generalizing index with
  | zero =>
    rw [drop_eq_nil_of_le (by omega)] at shape
    cases shape
  | succ left ih =>
    have bound : index < all.length := by omega
    rw [drop_eq_getElem_cons bound] at shape
    cases flag : all[index] with
    | true =>
      rw [flag] at shape
      cases shape
      exact ⟨bound, rfl⟩
    | false =>
      rw [flag] at shape
      exact ih shape (by omega)

/-- Check signatures in step with the positions of their keys. -/
def verifyAt (message : Message) (publicKeys : List scheme.PublicKey) :
    List Nat → List scheme.Signature → Fallible Unit
  | _, [] => .ok ()
  | [], _ :: _ => .error (outOfBounds 4)
  | position :: positions, signature :: signatures => do
      let publicKey ←
        Fallible.expect publicKeys[position]?
          (s!"index out of bounds: the len is {publicKeys.length} but the " ++
            s!"index is {position}")
      scheme.verify signature message publicKey
      verifyAt message publicKeys positions signatures

/-- The loop of the check. -/
theorem verifyFrom_eq (bitmap : KeyBitmap) (message : Message) (publicKeys : List scheme.PublicKey)
    (inside : index ≤ 32) (signatures : List scheme.Signature) :
    verifyFrom bitmap message publicKeys index signatures =
      verifyAt message publicKeys (positionsFrom index ((flags bitmap).drop index)) signatures := by
  induction signatures generalizing index with
  | nil => rw [verifyFrom, verifyAt]
  | cons signature signatures ih =>
    rw [verifyFrom, nextSetBit_eq bitmap inside (by omega)]
    cases shape : positionsFrom index ((flags bitmap).drop index) with
    | nil => rfl
    | cons position rest =>
      obtain ⟨bound, rfl⟩ := positionsFrom_tail shape
      rw [length_flags] at bound
      rw [verifyAt, ← ih bound]
      rfl

variable (message : Message) (publicKeys : List scheme.PublicKey)

/-- A signature fits the key at a position. -/
def Fits (position : Nat) (signature : scheme.Signature) : Prop :=
  ∃ publicKey,
    publicKeys[position]? = some publicKey ∧ scheme.valid signature message publicKey = true

variable (positions : List Nat) (signatures : List scheme.Signature)

/-- Every signature with a position fits the key there. -/
def AllFit : Prop :=
  ∀ (index position : Nat) (signature : scheme.Signature), positions[index]? = some position →
    signatures[index]? = some signature →
    Fits message publicKeys position signature

/-- There is one signature for each position, and a key at each. -/
def AlignedWith : Prop :=
  signatures.length = positions.length ∧ ∀ position ∈ positions, position < publicKeys.length

/-- Some signature does not verify with the key at its position. -/
def SomeInvalid : Prop :=
  ∃ (index position : Nat) (signature : scheme.Signature) (publicKey : scheme.PublicKey),
    positions[index]? = some position ∧ signatures[index]? = some signature ∧
      publicKeys[position]? = some publicKey ∧
      scheme.valid signature message publicKey = false

section Ends

variable {message : Message} {publicKeys : List scheme.PublicKey}
  {position : Nat} {positions : List Nat} {signature : scheme.Signature}
  {publicKey : scheme.PublicKey} {signatures : List scheme.Signature}

theorem AllFit.not_someInvalid (fits : AllFit message publicKeys positions signatures) :
    ¬ SomeInvalid message publicKeys positions signatures := by
  rintro ⟨index, position, single, key, atIndex, signed, found, invalid⟩
  obtain ⟨key', found', valid⟩ := fits index position single atIndex signed
  cases found.symm.trans found'
  cases invalid.symm.trans valid

/-- Positions beyond the keys have no signature to refuse. -/
theorem not_someInvalid_of_missing (sorted : (position :: positions).Pairwise (· < ·))
    (missing : publicKeys[position]? = none) :
    ¬ SomeInvalid message publicKeys (position :: positions) signatures := by
  rintro ⟨index, other, candidate, publicKey, atIndex, -, key, -⟩
  have beyond := List.getElem?_eq_none_iff.mp missing
  have inside := (List.getElem?_eq_some_iff.mp key).1
  rcases mem_cons.mp (mem_of_getElem? atIndex) with rfl | later
  · omega
  · have order := (pairwise_cons.mp sorted).1 other later
    omega

section

variable (found : publicKeys[position]? = some publicKey)
include found

theorem verifyAt_invalid (invalid : scheme.valid signature message publicKey = false) :
    verifyAt message publicKeys (position :: positions) (signature :: signatures) =
      .error (.error "signature error") := by
  rw [verifyAt, found]
  simp only [expect, ok_bind, Ed25519.verify, ensure, invalid]
  rfl

theorem verifyAt_valid (valid : scheme.valid signature message publicKey = true) :
    verifyAt message publicKeys (position :: positions) (signature :: signatures) =
      verifyAt message publicKeys positions signatures := by
  rw [verifyAt, found]
  simp only [expect, ok_bind, Ed25519.verify, ensure, valid, if_pos]

theorem someInvalid_cons_iff (valid : scheme.valid signature message publicKey = true) :
    SomeInvalid message publicKeys (position :: positions) (signature :: signatures) ↔
      SomeInvalid message publicKeys positions signatures := by
  constructor
  · rintro ⟨index, other, candidate, otherKey, atIndex, signed, key, invalid⟩
    cases index with
    | zero =>
      cases atIndex
      cases signed
      cases key.symm.trans found
      cases invalid.symm.trans valid
    | succ index => exact ⟨index, other, candidate, otherKey, atIndex, signed, key, invalid⟩
  · rintro ⟨index, rest⟩
    exact ⟨index + 1, rest⟩

end

end Ends

/-- How checking signatures in step with positions ends. -/
theorem verifyAt_cases (message : Message) (publicKeys : List scheme.PublicKey)
    {positions : List Nat} (sorted : positions.Pairwise (· < ·))
    (signatures : List scheme.Signature) :
    (verifyAt message publicKeys positions signatures = .ok () ∧
      AllFit message publicKeys positions signatures) ∨
    (∃ text, verifyAt message publicKeys positions signatures = .error (.error text) ∧
      SomeInvalid message publicKeys positions signatures) ∨
    (∃ text, verifyAt message publicKeys positions signatures = .error (.panic text) ∧
      ¬ SomeInvalid message publicKeys positions signatures ∧
      ¬ AlignedWith publicKeys positions signatures) := by
  induction signatures generalizing positions with
  | nil => exact .inl ⟨by rw [verifyAt], nofun⟩
  | cons signature signatures ih =>
    cases positions with
    | nil =>
      refine .inr (.inr ⟨_, rfl, ?_, ?_⟩)
      · rintro ⟨index, position, candidate, publicKey, atIndex, -⟩
        cases atIndex
      · rintro ⟨lengths, -⟩
        cases lengths
    | cons position positions =>
      cases found : publicKeys[position]? with
      | none =>
        obtain ⟨text, panics⟩ :
            ∃ text, verifyAt message publicKeys (position :: positions)
                (signature :: signatures) = .error (.panic text) := by
          rw [verifyAt, found]
          exact ⟨_, rfl⟩
        refine .inr (.inr ⟨text, panics, not_someInvalid_of_missing sorted found, ?_⟩)
        rintro ⟨-, inRange⟩
        have inside := inRange position mem_cons_self
        have beyond := getElem?_eq_none_iff.mp found
        omega
      | some publicKey =>
        cases valid : scheme.valid signature message publicKey with
        | false =>
          exact .inr (.inl ⟨_, verifyAt_invalid found valid, 0,
            position, signature, publicKey, rfl, rfl, found, valid⟩)
        | true =>
          rw [verifyAt_valid found valid, someInvalid_cons_iff found valid]
          rcases ih sorted.of_cons with
            ⟨passes, fits⟩ | fails |
            ⟨text, panics, noInvalid, outside⟩
          · refine .inl ⟨passes, ?_⟩
            rintro (- | index) other candidate atIndex signed
            · cases atIndex
              cases signed
              exact ⟨publicKey, found, valid⟩
            · exact fits index other candidate atIndex signed
          · exact .inr (.inl fails)
          · refine .inr (.inr ⟨text, panics, noInvalid, ?_⟩)
            rintro ⟨lengths, inRange⟩
            exact outside ⟨Nat.succ.inj lengths, fun other member =>
              inRange other (mem_cons_of_mem _ member)⟩

/-- The signature proves that enough keys signed the message. -/
structure Proper (signature : MultiEd25519Signature scheme) (message : Message)
    (publicKey : MultiEd25519PublicKey scheme) : Prop where
  enough : publicKey.threshold.toNat ≤ (setBits signature.bitmap).length
  inRange : ∀ position ∈ setBits signature.bitmap, position < publicKey.keys.length
  complete : signature.signatures.length = (setBits signature.bitmap).length
  valid : AllFit message publicKey.keys (setBits signature.bitmap) signature.signatures

variable (signature : MultiEd25519Signature scheme)

/-- The check tells whether the signature proves that, and never panics. -/
def Exact (message : Message) (publicKey : MultiEd25519PublicKey scheme) : Prop :=
  (signature.verifyArbitraryMsg message publicKey = .ok () ↔ signature.Proper message publicKey) ∧
    (signature.verifyArbitraryMsg message publicKey).NoPanic

/-- There are as many signatures as set bits, all of them for keys. -/
def Aligned (publicKey : MultiEd25519PublicKey scheme) : Prop :=
  AlignedWith publicKey.keys (setBits signature.bitmap) signature.signatures

/-- The signature is aligned with the key, or it is refused before that matters. -/
def ExactWhen (message : Message) (publicKey : MultiEd25519PublicKey scheme) : Prop :=
  (setBits signature.bitmap).length < publicKey.threshold.toNat ∨ signature.Aligned publicKey ∨
    SomeInvalid message publicKey.keys (setBits signature.bitmap) signature.signatures

theorem threshold_pos {Key : Type} (key : MultiKey Key) : 0 < key.threshold.toNat := by
  rw [Nat.pos_iff_ne_zero]
  intro zero
  exact key.positive (UInt8.toNat_inj.mp zero)

/--
The check before the loop.  The last set bit is compared with the length of the key in
bytes, which is never smaller.
-/
theorem verifyArbitraryMsg_eq (message : Message) (publicKey : MultiEd25519PublicKey scheme) :
    ((setBits signature.bitmap).length < publicKey.threshold.toNat ∧
      ∃ text, signature.verifyArbitraryMsg message publicKey = .error (.error text)) ∨
    (publicKey.threshold.toNat ≤ (setBits signature.bitmap).length ∧
      signature.verifyArbitraryMsg message publicKey =
        verifyAt message publicKey.keys (setBits signature.bitmap) signature.signatures) := by
  have positive := threshold_pos publicKey
  rw [verifyArbitraryMsg, bitmapCountOnes_eq]
  cases last : bitmapLastSetBit signature.bitmap with
  | none =>
    have empty := (bitmapLastSetBit_eq_none_iff _).mp last
    refine .inl ⟨?_, _, rfl⟩
    rw [empty]
    exact positive
  | some lastBit =>
    have bound : lastBit < 32 := by
      obtain ⟨entry, -, rfl⟩ := Option.map_eq_some_iff.mp last
      rw [bitmapNumOfBytes]
      omega
    have passes : lastBit ≤ publicKey.byteLength ed25519PublicKeyLength := by
      have reachable := publicKey.reachable
      rw [MultiKey.byteLength, ed25519PublicKeyLength]
      omega
    simp only [ensure, if_pos passes, ok_bind]
    by_cases enough : publicKey.threshold.toNat ≤ (setBits signature.bitmap).length
    · right
      rw [if_pos enough, ok_bind, verifyFrom_eq _ _ _ (Nat.zero_le 32)]
      exact ⟨enough, rfl⟩
    · left
      rw [if_neg enough]
      exact ⟨Nat.lt_of_not_le enough, _, rfl⟩

theorem Proper.aligned {signature : MultiEd25519Signature scheme} {message : Message}
    {publicKey : MultiEd25519PublicKey scheme} (proper : signature.Proper message publicKey) :
    signature.Aligned publicKey :=
  ⟨proper.complete, proper.inRange⟩

/-- The check is exact for a signature, a message and a key under one condition. -/
theorem exact_iff (message : Message) (publicKey : MultiEd25519PublicKey scheme) :
    signature.Exact message publicKey ↔ signature.ExactWhen message publicKey := by
  rcases signature.verifyArbitraryMsg_eq message publicKey with
    ⟨few, text, refused⟩ | ⟨enough, loop⟩
  · refine iff_of_true ?_ (.inl few)
    rw [Exact, refused]
    refine ⟨iff_of_false nofun ?_, noPanic_error text⟩
    intro proper
    have enough := proper.enough
    omega
  · have notFew : ¬ (setBits signature.bitmap).length < publicKey.threshold.toNat := by omega
    rw [Exact, ExactWhen, loop, or_iff_right notFew]
    have sorted : (setBits signature.bitmap).Pairwise (· < ·) :=
      pairwise_positions (flags signature.bitmap)
    rcases verifyAt_cases message publicKey.keys sorted signature.signatures with
      ⟨passes, fits⟩ | ⟨text, fails, invalid⟩ |
      ⟨text, panics, noInvalid, outside⟩
    · rw [passes, or_iff_left fits.not_someInvalid]
      constructor
      · rintro ⟨exact, -⟩
        exact (exact.mp rfl).aligned
      · intro aligned
        exact ⟨iff_of_true rfl ⟨enough, aligned.2, aligned.1, fits⟩, Fallible.noPanic_ok ()⟩
    · rw [fails]
      refine iff_of_true
        ⟨iff_of_false nofun fun proper =>
            proper.valid.not_someInvalid invalid,
          noPanic_error text⟩ (.inr invalid)
    · rw [panics]
      refine iff_of_false ?_ ?_
      · rintro ⟨-, noPanic⟩
        exact noPanic text rfl
      · rintro (aligned | invalid)
        · exact outside aligned
        · exact noInvalid invalid

end MultiEd25519Signature

end Verification

end MultiEd25519

end Diem
