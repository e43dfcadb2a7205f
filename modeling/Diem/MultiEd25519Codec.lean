import Diem.MultiEd25519Spec
import Mathlib.Data.List.Sort

namespace Diem

open Fallible (bind_eq_ok_iff)
open List Nat UInt8

/-!
# Byte forms and construction of multi-key material

Parsing reads back the byte form of keys, and of signatures with one set bit for each
single signature.  Building a signature from single ones does not depend on their
order, and what the private keys sign verifies.
-/

namespace MultiEd25519

open BitFlags MultiKey

section Chunks

variable {α : Type} {size : Nat}

theorem chunksExact_append (positive : 0 < size) {chunk : List α} (sized : chunk.length = size)
    (items : List α) : chunksExact size (chunk ++ items) = chunk :: chunksExact size items := by
  have count : (chunk ++ items).length / size = items.length / size + 1 := by
    rw [length_append, sized, add_div_left _ positive]
  rw [chunksExact, count, range_succ_eq_map, map_cons, map_map, chunksExact]
  congr 1
  · rw [Nat.zero_mul, drop_zero, ← sized, take_left]
  · refine map_congr_left fun index _ => ?_
    have offset : succ index * size = chunk.length + index * size := by
      rw [sized, Nat.succ_mul, Nat.add_comm]
    rw [Function.comp_apply, offset, ← drop_drop, drop_left]

/-- The chunks and what is left of a list. -/
theorem flatten_chunksExact (positive : 0 < size) (items : List α) :
    (chunksExact size items).flatten ++ items.drop (items.length / size * size) = items := by
  generalize counted : items.length / size = count
  induction count generalizing items with
  | zero =>
    rw [chunksExact, counted]
    simp
  | succ count ih =>
    have long : size ≤ items.length := by
      by_contra short
      rw [Nat.div_eq_of_lt (Nat.lt_of_not_le short)] at counted
      cases counted
    obtain ⟨chunk, rest, rfl, sized⟩ : ∃ chunk rest, items = chunk ++ rest ∧ chunk.length = size :=
      ⟨items.take size, items.drop size, (take_append_drop size items).symm,
        by rw [length_take, min_eq_left long]⟩
    rw [length_append, sized, add_div_left _ positive] at counted
    have whole := ih rest (succ.inj counted)
    have offset : (count + 1) * size = chunk.length + count * size := by
      rw [sized, Nat.succ_mul, Nat.add_comm]
    rw [chunksExact_append positive sized, flatten_cons, offset,
      ← drop_drop, drop_left, append_assoc, whole]

end Chunks

variable {bytes : List UInt8}

section Layout

variable {Material : Type} {size : Nat} (material : ValidCryptoMaterial Material size)

/-- The chunks of a byte form. -/
theorem chunksExact_layout (positive : 0 < size) (items : List Material) {tail : List UInt8}
    (short : tail.length < size) :
    chunksExact size (items.flatMap material.toBytes ++ tail) = items.map material.toBytes := by
  induction items with
  | nil =>
    rw [flatMap_nil, nil_append, chunksExact, div_eq_of_lt short]
    rfl
  | cons item items ih =>
    rw [flatMap_cons, append_assoc, chunksExact_append positive (material.length_toBytes item),
      ih, map_cons]

theorem mapM_tryFrom_toBytes (items : List Material) :
    (items.map material.toBytes).mapM material.tryFrom = .ok items := by
  induction items with
  | nil => rfl
  | cons item items ih =>
    rw [map_cons, mapM_cons, material.tryFrom_toBytes, ih]
    rfl

variable {items : List Material}

theorem toBytes_of_mapM_tryFrom {chunks : List (List UInt8)}
    (parsed : chunks.mapM material.tryFrom = .ok items) : items.map material.toBytes = chunks := by
  induction chunks generalizing items with
  | nil =>
    cases parsed
    rfl
  | cons chunk chunks ih =>
    rw [mapM_cons] at parsed
    obtain ⟨item, first, parsed⟩ := bind_eq_ok_iff.mp parsed
    obtain ⟨others, rest, same⟩ := bind_eq_ok_iff.mp parsed
    cases same
    rw [map_cons, material.toBytes_tryFrom first, ih rest]

theorem length_layout (items : List Material) :
    (items.flatMap material.toBytes).length = items.length * size := by
  simp [material.length_toBytes]

/-- Bytes whose chunks parse are a byte form with something after it. -/
theorem layout_of_parsed (positive : 0 < size)
    (parsed : (chunksExact size bytes).mapM material.tryFrom = .ok items) :
    items.length = bytes.length / size ∧
      items.flatMap material.toBytes ++ bytes.drop (bytes.length / size * size) = bytes := by
  have chunks := toBytes_of_mapM_tryFrom material parsed
  constructor
  · have lengths := congrArg length chunks
    simpa [chunksExact] using lengths
  · rw [flatMap_def, chunks]
    exact flatten_chunksExact positive bytes

end Layout

section Keys

variable {Key : Type} {size : Nat} (material : ValidCryptoMaterial Key size)

theorem MultiKey.new_eq (key : MultiKey Key) : new key.keys key.threshold = .ok key := by
  rw [new, dif_pos ⟨key.positive, key.reachable⟩, dif_pos key.bounded]

theorem checkAndGetThreshold_eq_ok_iff {threshold : UInt8} :
    checkAndGetThreshold bytes size = .ok threshold ↔
      bytes.getLast? = some threshold ∧ bytes.length / size ≠ 0 ∧
        bytes.length / size ≤ maxNumOfKeys ∧ bytes.length % size = 1 ∧
        threshold ≠ 0 ∧ threshold.toNat ≤ bytes.length / size := by
  rw [checkAndGetThreshold]
  cases last : bytes.getLast? with
  | none => simp
  | some thresholdByte =>
    by_cases sized :
        bytes.length / size = 0 ∨ maxNumOfKeys < bytes.length / size ∨ bytes.length % size ≠ 1
    · dsimp only
      rw [if_pos sized]
      refine iff_of_false nofun ?_
      rintro ⟨-, nonzero, bounded, one, -⟩
      omega
    · have small : bytes.length / size < 256 := by
        rw [maxNumOfKeys] at sized
        omega
      have compare : ofNat (bytes.length / size) < thresholdByte ↔
            bytes.length / size < thresholdByte.toNat := by
        rw [lt_iff_toNat_lt, toNat_ofNat_of_lt' small]
      dsimp only
      rw [if_neg sized]
      split
      · rename_i refused
        refine iff_of_false nofun ?_
        rintro ⟨same, -, -, -, nonzero, reachable⟩
        cases same
        rcases refused with zero | high
        · exact nonzero zero
        · have above := compare.mp high
          omega
      · rename_i accepted
        rw [Except.ok.injEq, Option.some.injEq]
        constructor
        · rintro rfl
          rw [compare] at accepted
          push Not at sized accepted
          exact ⟨rfl, sized.1, sized.2.1, sized.2.2, accepted.1, accepted.2⟩
        · rintro ⟨same, -⟩
          exact same

/-- Parsing reads a key back. -/
theorem MultiKey.tryFrom_toBytes (large : 1 < size) (key : MultiKey Key) :
    tryFrom material (key.toBytes material) = .ok key := by
  have length : (key.toBytes material).length = key.keys.length * size + 1 := by
    rw [toBytes, length_append, length_layout]
    rfl
  have count : (key.toBytes material).length / size = key.keys.length := by
    rw [length, Nat.add_comm, Nat.add_mul_div_right _ _ (by omega),
      Nat.div_eq_of_lt large, Nat.zero_add]
  have rest : (key.toBytes material).length % size = 1 := by
    rw [length, Nat.add_comm, Nat.add_mul_mod_self_right, Nat.mod_eq_of_lt large]
  have positive := MultiEd25519Signature.threshold_pos key
  have reachable := key.reachable
  have threshold : checkAndGetThreshold (key.toBytes material) size = .ok key.threshold := by
    rw [checkAndGetThreshold_eq_ok_iff, count]
    refine ⟨?_, by omega, key.bounded, rest, key.positive, reachable⟩
    rw [toBytes, getLast?_concat]
  have chunks : chunksExact size (key.toBytes material) = key.keys.map material.toBytes :=
    chunksExact_layout material (by omega) key.keys large
  rw [tryFrom, threshold, chunks]
  rw [mapM_tryFrom_toBytes]
  exact key.new_eq

theorem MultiKey.toBytes_tryFrom (positive : 0 < size) {key : MultiKey Key}
    (parsed : tryFrom material bytes = .ok key) : key.toBytes material = bytes := by
  obtain ⟨threshold, checked, parsed⟩ := bind_eq_ok_iff.mp parsed
  obtain ⟨keys, read, parsed⟩ := bind_eq_ok_iff.mp parsed
  obtain ⟨last, -, -, one, -⟩ := checkAndGetThreshold_eq_ok_iff.mp checked
  obtain ⟨-, whole⟩ := layout_of_parsed material positive read
  rw [new] at parsed
  split at parsed
  · split at parsed
    · cases parsed
      have length : (bytes.drop (bytes.length / size * size)).length = 1 := by
        have split := div_add_mod' bytes.length size
        rw [length_drop]
        omega
      obtain ⟨byte, tail⟩ := length_eq_one_iff.mp length
      rw [tail] at whole
      rw [← whole, getLast?_concat] at last
      cases last
      exact whole
    · cases parsed
  · cases parsed

end Keys

section Signatures

variable {Message : Type} {scheme : Ed25519 Message}

namespace MultiEd25519Signature

theorem bitmapFromBytes_eq_some_iff {bitmap : KeyBitmap} :
    bitmapFromBytes bytes = some bitmap ↔ bytes = bitmap.toList.map ofBitVec := by
  have backAndForth : ofBitVec ∘ toBitVec = id := rfl
  have forthAndBack : toBitVec ∘ ofBitVec = id := rfl
  rw [bitmapFromBytes]
  split
  · rw [Option.some.injEq]
    constructor
    · rintro rfl
      rw [Vector.toList_mk, toList_toArray, map_map, backAndForth, map_id]
    · rintro rfl
      refine Vector.toList_inj.mp ?_
      rw [Vector.toList_mk, toList_toArray, map_map, forthAndBack, map_id]
  · rename_i unsized
    refine iff_of_false nofun ?_
    rintro rfl
    apply unsized
    rw [length_map, length_map]
    exact Vector.length_toList

/-- What parsing a signature checks. -/
theorem tryFrom_eq_ok_iff {signature : MultiEd25519Signature scheme} :
    tryFrom bytes = .ok signature ↔ bytes.length / ed25519SignatureLength ≠ 0 ∧
      bytes.length / ed25519SignatureLength ≤ maxNumOfKeys ∧
      bytes.length % ed25519SignatureLength = bitmapNumOfBytes ∧
      bytes.drop (bytes.length - bitmapNumOfBytes) = signature.bitmap.toList.map ofBitVec ∧
      (setBits signature.bitmap).length = bytes.length / ed25519SignatureLength ∧
      (chunksExact ed25519SignatureLength bytes).mapM
        scheme.signatures.tryFrom = .ok signature.signatures := by
  rw [← bitmapFromBytes_eq_some_iff, tryFrom]
  by_cases sized :
      bytes.length / ed25519SignatureLength = 0 ∨
        maxNumOfKeys < bytes.length / ed25519SignatureLength ∨
        bytes.length % ed25519SignatureLength ≠ bitmapNumOfBytes
  · rw [if_pos sized]
    refine iff_of_false nofun ?_
    rintro ⟨nonzero, bounded, four, -⟩
    omega
  · rw [if_neg sized]
    push Not at sized
    cases bytesRead : bitmapFromBytes (bytes.drop (bytes.length - bitmapNumOfBytes)) with
    | none =>
      refine iff_of_false nofun ?_
      rintro ⟨-, -, -, impossible, -⟩
      cases impossible
    | some bitmap =>
      dsimp only
      rw [bitmapCountOnes_eq]
      by_cases counted : (setBits bitmap).length = bytes.length / ed25519SignatureLength
      · rw [if_neg (not_not.mpr counted)]
        cases read : (chunksExact ed25519SignatureLength bytes).mapM scheme.signatures.tryFrom with
        | error failure =>
          refine iff_of_false nofun ?_
          rintro ⟨-, -, -, -, -, impossible⟩
          cases impossible
        | ok signatures =>
          constructor
          · intro parsed
            cases parsed
            exact ⟨sized.1, sized.2.1, sized.2.2, rfl, counted, rfl⟩
          · rintro ⟨-, -, -, sameBitmap, -, sameSignatures⟩
            obtain ⟨own, ownBitmap⟩ := signature
            cases sameBitmap
            cases sameSignatures
            rfl
      · rw [if_pos counted]
        refine iff_of_false nofun ?_
        rintro ⟨-, -, -, sameBitmap, sameCount, -⟩
        cases sameBitmap
        exact counted sameCount

/-- Parsing reads a signature back exactly if there is a set bit for each single one. -/
theorem tryFrom_toBytes_iff (signature : MultiEd25519Signature scheme) :
    tryFrom signature.toBytes = .ok signature ↔ signature.signatures ≠ [] ∧
      signature.signatures.length = (setBits signature.bitmap).length := by
  have bitmapLength : (signature.bitmap.toList.map ofBitVec).length = 4 := by
    rw [length_map]
    exact Vector.length_toList
  have length : signature.toBytes.length = signature.signatures.length * 64 + 4 := by
    rw [toBytes, length_append, length_layout, bitmapLength]
    rfl
  have chunks : chunksExact ed25519SignatureLength signature.toBytes =
        signature.signatures.map scheme.signatures.toBytes := by
    refine chunksExact_layout scheme.signatures (by decide) _ ?_
    rw [bitmapLength]
    decide
  have tail : signature.toBytes.drop (signature.toBytes.length - bitmapNumOfBytes) =
        signature.bitmap.toList.map ofBitVec := by
    have start : signature.toBytes.length - bitmapNumOfBytes =
          (signature.signatures.flatMap scheme.signatures.toBytes).length := by
      rw [length, length_layout]
      rfl
    rw [start, toBytes, drop_left]
  have bound : (setBits signature.bitmap).length ≤ 32 := by
    have few := count_le_length (a := true) (l := flags signature.bitmap)
    rw [setBits, length_positions]
    rwa [length_flags] at few
  have nonempty : signature.signatures ≠ [] ↔ signature.signatures.length ≠ 0 := by
    rw [ne_eq, ne_eq, length_eq_zero_iff]
  rw [tryFrom_eq_ok_iff, chunks, mapM_tryFrom_toBytes, tail, length,
    nonempty, ed25519SignatureLength, maxNumOfKeys]
  have four : bitmapNumOfBytes = 4 := rfl
  constructor
  · rintro ⟨nonzero, -, -, -, count, -⟩
    omega
  · rintro ⟨nonzero, count⟩
    refine ⟨by omega, by omega, by omega, rfl, by omega, rfl⟩

theorem toBytes_tryFrom {signature : MultiEd25519Signature scheme}
    (parsed : tryFrom bytes = .ok signature) : signature.toBytes = bytes := by
  obtain ⟨-, -, four, tail, -, read⟩ := tryFrom_eq_ok_iff.mp parsed
  obtain ⟨-, whole⟩ := layout_of_parsed scheme.signatures (by decide) read
  have start : bytes.length / ed25519SignatureLength * ed25519SignatureLength =
        bytes.length - bitmapNumOfBytes := by
    rw [ed25519SignatureLength] at four ⊢
    omega
  rw [start, tail] at whole
  exact whole

end MultiEd25519Signature

end Signatures

section SetBits

theorem setBits_zero : setBits (Vector.replicate bitmapNumOfBytes 0) = [] := by
  decide

variable (bitmap : KeyBitmap)

theorem pairwise_setBits : (setBits bitmap).Pairwise (· < ·) := pairwise_positions (flags bitmap)

/-- Setting a bit inside the bitmap adds its position. -/
theorem mem_setBits_of_set {index : Nat} (inside : index < 32) :
    ∃ bitmap', bitmapSetBit bitmap index = .ok bitmap' ∧
      ∀ position, position ∈ setBits bitmap' ↔ position = index ∨ position ∈ setBits bitmap := by
  obtain ⟨bitmap', set, sameFlags⟩ := bitmapSetBit_eq bitmap inside
  refine ⟨bitmap', set, fun position => ?_⟩
  rw [setBits, sameFlags]
  refine mem_positions_set ?_
  rw [length_flags]
  exact inside

theorem bitmapGetBit_eq_ok {index : Nat} (inside : index < 32) :
    bitmapGetBit bitmap index = .ok (decide (index ∈ setBits bitmap)) := by
  rw [bitmapGetBit_eq]
  have bound : index < (flags bitmap).length := by
    rw [length_flags]
    exact inside
  simp [setBits, mem_positions, bound]

end SetBits

section Construction

variable {Message : Type} {scheme : Ed25519 Message}

namespace MultiEd25519Signature

/-- Adding an index fails, or adds its position. -/
theorem addIndex_cases (bitmap : KeyBitmap) (index : UInt8) :
    (∃ error, addIndex bitmap index = .ok (.error error)) ∨
    (index.toNat < 32 ∧ index.toNat ∉ setBits bitmap ∧
      ∃ bitmap', addIndex bitmap index = .ok (.ok bitmap') ∧ ∀ position,
        position ∈ setBits bitmap' ↔ position = index.toNat ∨ position ∈ setBits bitmap) := by
  rw [addIndex]
  by_cases inside : index.toNat < maxNumOfKeys
  · rw [if_pos inside, bitmapGetBit_eq_ok bitmap inside]
    by_cases present : index.toNat ∈ setBits bitmap
    · left
      simp only [Fallible.ok_bind, present, decide_true]
      exact ⟨_, rfl⟩
    · right
      obtain ⟨bitmap', set, members⟩ := mem_setBits_of_set bitmap inside
      simp only [Fallible.ok_bind, present, decide_false, set]
      exact ⟨inside, not_false, bitmap', rfl, members⟩
  · left
    rw [if_neg inside]
    exact ⟨_, rfl⟩

/-- Adding indices fails, or they are different and in range. -/
theorem addIndices_cases (indices : List UInt8) (bitmap : KeyBitmap) :
    (∃ error, addIndices indices bitmap = .ok (.error error)) ∨
    (indices.Nodup ∧ (∀ index ∈ indices, index.toNat ∉ setBits bitmap) ∧
      ∃ bitmap', addIndices indices bitmap = .ok (.ok bitmap') ∧
        ∀ position, position ∈ setBits bitmap' ↔
          position ∈ indices.map toNat ∨ position ∈ setBits bitmap) := by
  induction indices generalizing bitmap with
  | nil => exact .inr ⟨nodup_nil, nofun, bitmap, rfl, by simp⟩
  | cons index indices ih =>
    rw [addIndices]
    rcases addIndex_cases bitmap index with
      ⟨error, failed⟩ | ⟨inside, absent, bitmap₁, added, members₁⟩
    · left
      rw [failed]
      exact ⟨error, rfl⟩
    · rw [added]
      rcases ih bitmap₁ with
        ⟨error, failed⟩ | ⟨nodup, fresh, bitmap₂, rest, members₂⟩
      · exact .inl ⟨error, failed⟩
      · refine .inr ⟨?_, ?_, bitmap₂, rest, ?_⟩
        · refine nodup_cons.mpr ⟨fun again => ?_, nodup⟩
          exact fresh index again ((members₁ _).mpr (.inl rfl))
        · intro other member present
          rcases mem_cons.mp member with rfl | later
          · exact absent present
          · exact fresh other later ((members₁ _).mpr (.inr present))
        · intro position
          rw [members₂, members₁, map_cons, mem_cons]
          tauto

variable (signatures : List (scheme.Signature × UInt8))

theorem sortByIndex_perm : (sortByIndex signatures).Perm signatures := mergeSort_perm _ _

theorem pairwise_sortByIndex : ((sortByIndex signatures).map Prod.snd).Pairwise (· ≤ ·) := by
  have sorted : (sortByIndex signatures).Pairwise fun a b => decide (a.2 ≤ b.2) = true := by
    refine pairwise_mergeSort ?_ ?_ signatures
    · intro a b c first second
      simp only [decide_eq_true_eq] at first second ⊢
      exact UInt8.le_trans first second
    · intro a b
      simpa using UInt8.le_total a.2 b.2
  rw [pairwise_map]
  exact sorted.imp fun order => of_decide_eq_true order

variable {signatures signatures' : List (scheme.Signature × UInt8)}

section

variable (same : signatures.Perm signatures')
include same

theorem sortByIndex_indices_eq :
    (sortByIndex signatures).map Prod.snd = (sortByIndex signatures').map Prod.snd := by
  refine List.Perm.eq_of_pairwise' (pairwise_sortByIndex signatures)
    (pairwise_sortByIndex signatures') ?_
  exact ((sortByIndex_perm signatures).trans
    (same.trans (sortByIndex_perm signatures').symm)).map Prod.snd

/-- With different indices there is only one sorted list. -/
theorem sortByIndex_eq (nodup : ((sortByIndex signatures).map Prod.snd).Nodup) :
    sortByIndex signatures = sortByIndex signatures' := by
  have perm := (sortByIndex_perm signatures).trans (same.trans (sortByIndex_perm signatures').symm)
  have sorted := pairwise_sortByIndex signatures
  have sorted' := pairwise_sortByIndex signatures'
  rw [pairwise_map] at sorted sorted'
  refine perm.eq_of_pairwise ?_ sorted sorted'
  intro a b inFirst inSecond first second
  have indices : a.2 = b.2 := UInt8.le_antisymm first second
  exact inj_on_of_nodup_map nodup inFirst (perm.mem_iff.mpr inSecond) indices

/-- The order of the single signatures does not matter. -/
theorem new_perm : new signatures = new signatures' := by
  rw [new, new, same.length_eq]
  split
  · rfl
  · dsimp only
    rw [← sortByIndex_indices_eq same]
    rcases addIndices_cases ((sortByIndex signatures).map Prod.snd) (Vector.replicate _ 0) with
      ⟨error, failed⟩ | ⟨nodup, -, bitmap, added, -⟩
    · rw [failed]
      rfl
    · rw [added, sortByIndex_eq same nodup]

end

/-- A signature that was built has one set bit for each single signature. -/
theorem new_complete {signature : MultiEd25519Signature scheme}
    (built : new signatures = .ok (.ok signature)) :
    signature.signatures ≠ [] ∧
      signature.signatures.length = (setBits signature.bitmap).length := by
  rw [new] at built
  split at built
  · cases built
  · rename_i sized
    rcases addIndices_cases ((sortByIndex signatures).map Prod.snd) (Vector.replicate _ 0) with
      ⟨error, failed⟩ | ⟨nodup, -, bitmap, added, members⟩
    · dsimp only at built
      rw [failed] at built
      cases built
    · dsimp only at built
      rw [added] at built
      cases built
      have indices :
          (setBits bitmap).Perm (((sortByIndex signatures).map Prod.snd).map toNat) := by
        refine (perm_ext_iff_of_nodup ?_ ?_).mpr ?_
        · exact (pairwise_setBits bitmap).imp Nat.ne_of_lt
        · exact nodup.map fun _ _ => UInt8.toNat_inj.mp
        · intro position
          rw [members, setBits_zero]
          simp
      have lengths := (sortByIndex_perm signatures).length_eq
      constructor
      · rw [← length_pos_iff_ne_nil, length_map, lengths]
        omega
      · rw [indices.length_eq]
        simp

end MultiEd25519Signature

/-- Setting bits that are all inside the bitmap. -/
theorem foldlM_bitmapSetBit (indices : List Nat) (inside : ∀ index ∈ indices, index < 32)
    (bitmap : KeyBitmap) :
    ∃ bitmap', indices.foldlM bitmapSetBit bitmap = .ok bitmap' ∧
      ∀ position, position ∈ setBits bitmap' ↔ position ∈ indices ∨ position ∈ setBits bitmap := by
  induction indices generalizing bitmap with
  | nil => exact ⟨bitmap, rfl, by simp⟩
  | cons index indices ih =>
    obtain ⟨bitmap₁, set, members₁⟩ := mem_setBits_of_set bitmap (inside index mem_cons_self)
    obtain ⟨bitmap₂, rest, members₂⟩ :=
      ih (fun other member => inside other (mem_cons_of_mem _ member)) bitmap₁
    refine ⟨bitmap₂, ?_, fun position => ?_⟩
    · rw [foldlM_cons, set]
      exact rest
    · rw [members₂, members₁, mem_cons]
      tauto

variable (privateKey : MultiEd25519PrivateKey scheme)

/-- What the first keys sign, with the bitmap of the first positions. -/
theorem sign_proper (message : Message) {bitmap : KeyBitmap}
    (positions : setBits bitmap = range privateKey.threshold.toNat) :
    MultiEd25519Signature.Proper
      (⟨(privateKey.keys.take privateKey.threshold.toNat).map
          fun key => scheme.sign key message, bitmap⟩ :
        MultiEd25519Signature scheme)
      message privateKey.publicKey where
  enough := by
    rw [positions, length_range]
    exact le_rfl
  inRange := by
    intro position member
    have reachable := privateKey.reachable
    rw [positions, mem_range] at member
    rw [publicKey, length_map]
    omega
  complete := by
    rw [positions, length_range, length_map, length_take, min_eq_left privateKey.reachable]
  valid := by
    intro index position single atIndex signed
    rw [positions] at atIndex
    obtain ⟨bound, atIndex⟩ := List.getElem?_eq_some_iff.mp atIndex
    rw [getElem_range] at atIndex
    subst atIndex
    rw [getElem?_map] at signed
    obtain ⟨key, found, rfl⟩ := Option.map_eq_some_iff.mp signed
    refine ⟨scheme.publicKey key, ?_, scheme.valid_sign key message⟩
    rw [publicKey, getElem?_map]
    rw [getElem?_take_of_lt (by simpa using bound)] at found
    rw [found]
    rfl

/-- What the private keys sign is a signature that the public keys accept. -/
theorem sign_verifies (message : Message) :
    ∃ signature, privateKey.sign message = .ok signature ∧
      signature.verifyArbitraryMsg message privateKey.publicKey = .ok () := by
  have reachable := privateKey.reachable
  have bounded := privateKey.bounded
  have count : (privateKey.keys.take privateKey.threshold.toNat).length =
        privateKey.threshold.toNat := by
    rw [length_take, min_eq_left reachable]
  have inside : ∀ index ∈ range privateKey.threshold.toNat, index < 32 := by
    intro index member
    have below := mem_range.mp member
    rw [maxNumOfKeys] at bounded
    omega
  obtain ⟨bitmap, set, members⟩ := foldlM_bitmapSetBit _ inside (Vector.replicate _ 0)
  have positions : setBits bitmap = range privateKey.threshold.toNat := by
    refine List.Perm.eq_of_pairwise' (pairwise_setBits bitmap) pairwise_lt_range ?_
    refine (perm_ext_iff_of_nodup ?_ nodup_range).mpr ?_
    · exact (pairwise_setBits bitmap).imp Nat.ne_of_lt
    · intro position
      rw [members, setBits_zero]
      simp
  have proper := sign_proper privateKey message positions
  have exact := (MultiEd25519Signature.exact_iff _ message privateKey.publicKey).mpr
    (.inr (.inl proper.aligned))
  refine ⟨_, ?_, exact.1.mpr proper⟩
  rw [sign, count, set]
  rfl

end Construction

end MultiEd25519

end Diem
