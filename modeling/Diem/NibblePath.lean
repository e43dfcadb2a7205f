import Diem.CompressedTrie
import Mathlib.Algebra.GroupWithZero.Nat
import Mathlib.Data.List.FinRange
import Mathlib.Data.List.Lex
import Mathlib.Data.Prod.Lex

namespace Diem

open List

/-!
# Nibbles and the keys of accounts

A key is the hash of an account address: 256 bits, read as 64 nibbles.  Nodes of the
state tree are found by nibbles, proofs are made of bits (`types/src/nibble/mod.rs`,
`types/src/nibble/nibble_path/mod.rs`).
-/

/-- Four bits. -/
abbrev Nibble := Fin 16

instance sixteen_neZero : NeZero 16 := ⟨by decide⟩

/-- The nibbles on the way from the root to a node. -/
abbrev NibblePath := List Nibble

/-- The bits of a nibble, the most significant one first. -/
def Nibble.bits (nibble : Nibble) : List Bool :=
  [nibble.val.testBit 3, nibble.val.testBit 2, nibble.val.testBit 1, nibble.val.testBit 0]

def NibblePath.bits (nibbles : NibblePath) : List Bool :=
  nibbles.flatMap Nibble.bits

/-- The height of the state tree in nibbles. -/
def rootNibbleHeight : Nat := 64

/-- A hashed account address. -/
structure AccountKey where
  nibbles : NibblePath
  length : nibbles.length = rootNibbleHeight
  deriving DecidableEq

namespace AccountKey

theorem nibbles_injective : Function.Injective AccountKey.nibbles := by
  rintro ⟨first, _⟩ ⟨second, _⟩ same
  cases same
  rfl

instance : LinearOrder AccountKey :=
  LinearOrder.lift' AccountKey.nibbles nibbles_injective

/-- The bits of a key, the most significant one first. -/
def bits (key : AccountKey) : List Bool :=
  NibblePath.bits key.nibbles

/-- The nibble of a key at a depth. -/
def getNibble (key : AccountKey) (index : Nat) : Nibble :=
  key.nibbles.getD index 0

/-- The number of bits two keys start with in common. -/
def commonPrefixBitsLen (key other : AccountKey) : Nat :=
  ((key.bits.zip other.bits).takeWhile fun pair => pair.1 = pair.2).length

theorem lt_iff {first second : AccountKey} : first < second ↔ first.nibbles < second.nibbles :=
  Iff.rfl

end AccountKey

namespace NibblePath

@[simp] theorem bits_nil : bits [] = [] := rfl

@[simp] theorem bits_cons (nibble : Nibble) (nibbles : NibblePath) :
    bits (nibble :: nibbles) = nibble.bits ++ bits nibbles :=
  rfl

@[simp] theorem bits_append (first second : NibblePath) :
    bits (first ++ second) = bits first ++ bits second :=
  flatMap_append

@[simp] theorem length_nibble_bits (nibble : Nibble) : nibble.bits.length = 4 := rfl

@[simp] theorem length_bits (nibbles : NibblePath) :
    (bits nibbles).length = 4 * nibbles.length := by
  induction nibbles with
  | nil => rfl
  | cons nibble nibbles ih =>
    rw [bits_cons, length_append, ih, length_nibble_bits, length_cons]
    omega

theorem nibble_bits_injective : Function.Injective Nibble.bits := by
  unfold Function.Injective
  decide

/-- A nibble path starts with another exactly when its bits do. -/
theorem bits_prefix_iff {front nibbles : NibblePath} :
    bits front <+: bits nibbles ↔ front <+: nibbles := by
  induction front generalizing nibbles with
  | nil => simp
  | cons nibble front ih =>
    cases nibbles with
    | nil => simp [Nibble.bits]
    | cons other nibbles =>
      rw [bits_cons, bits_cons, cons_prefix_cons, ← ih]
      constructor
      · rintro ⟨rest, shape⟩
        rw [append_assoc] at shape
        obtain ⟨same, restShape⟩ := append_inj shape rfl
        exact ⟨nibble_bits_injective same, rest, restShape⟩
      · rintro ⟨rfl, rest, shape⟩
        exact ⟨rest, by rw [append_assoc, shape]⟩

theorem bits_injective : Function.Injective bits := by
  intro first second same
  have forward : first <+: second := bits_prefix_iff.mp (same ▸ prefix_rfl)
  have lengths := congrArg length same
  rw [length_bits, length_bits] at lengths
  exact forward.eq_of_length (by omega)

/-- Bits after a path and inside the nibble that follows it. -/
theorem append_prefix_iff {front nibbles : NibblePath} {nibble : Nibble} {inside : List Bool}
    (starts : front ++ [nibble] <+: nibbles) (short : inside.length ≤ 4) :
    bits front ++ inside <+: bits nibbles ↔ inside <+: nibble.bits := by
  obtain ⟨rest, rfl⟩ := starts
  rw [bits_append, bits_append, append_assoc, prefix_append_right_inj]
  constructor
  · intro starts
    have whole : (nibble.bits ++ bits rest).take 4 = nibble.bits := by rfl
    rw [bits_cons, bits_nil, append_nil] at starts
    have taken := starts.take 4
    rwa [take_of_length_le short, whole] at taken
  · intro starts
    exact starts.trans (prefix_append _ _)

end NibblePath

namespace AccountKey

theorem uniform_nibbles : CompressedTrie.UniformPaths AccountKey.nibbles rootNibbleHeight where
  injective := nibbles_injective
  length := AccountKey.length

theorem uniform_bits : CompressedTrie.UniformPaths AccountKey.bits (4 * rootNibbleHeight) where
  injective := NibblePath.bits_injective.comp nibbles_injective
  length key := by
    rw [bits, NibblePath.length_bits, key.length]

variable {count : Nat}

/-- The common start of two lists is at least as long as equal starts. -/
theorem le_length_takeWhile_zip {first second : List Bool} (firstLong : count ≤ first.length)
    (secondLong : count ≤ second.length) :
    count ≤ ((first.zip second).takeWhile fun pair =>
        decide (pair.1 = pair.2)).length ↔
      first.take count = second.take count := by
  induction count generalizing first second with
  | zero => simp
  | succ count ih =>
    cases first with
    | nil => simp at firstLong
    | cons bit first =>
      cases second with
      | nil => simp at secondLong
      | cons other second =>
        have rest := ih (Nat.le_of_succ_le_succ firstLong) (Nat.le_of_succ_le_succ secondLong)
        by_cases same : bit = other
        · simp [same, rest]
        · simp [same]

theorem le_commonPrefixBitsLen {key other : AccountKey} (short : count ≤ 4 * rootNibbleHeight) :
    count ≤ key.commonPrefixBitsLen other ↔ key.bits.take count = other.bits.take count := by
  have length : ∀ key : AccountKey, key.bits.length = 4 * rootNibbleHeight := by
    intro key
    rw [bits, NibblePath.length_bits, key.length]
  exact le_length_takeWhile_zip (by rw [length]; exact short) (by rw [length]; exact short)

/-- A key below a path that is not complete has a next nibble. -/
theorem exists_nibble {key : AccountKey} {front : NibblePath} (starts : front <+: key.nibbles)
    (short : front.length < rootNibbleHeight) : ∃ nibble, front ++ [nibble] <+: key.nibbles := by
  obtain ⟨rest, shape⟩ := starts
  cases rest with
  | nil =>
    have lengths := key.length
    rw [← shape, append_nil] at lengths
    omega
  | cons nibble rest => exact ⟨nibble, rest, by rw [← shape]; simp⟩

end AccountKey

end Diem
