import Mathlib.Data.Nat.EvenOddRec
import Mathlib.Data.Nat.Log
import Mathlib.Tactic.Linarith
import Diem.Word64

namespace Diem.MerkleForest

open List

/-!
# Forests of perfect Merkle trees

The leaves `0, 1, 2, ...` are the bottom row of an infinite binary tree whose node
`index` at `level` covers the leaves from `index * 2 ^ level` up to
`(index + 1) * 2 ^ level`.  The first `count` leaves decompose uniquely into
maximal perfect subtrees, one for each set bit of `count`; `frozenNodes` lists
their roots from left to right.  Everything else in the tree is padded with a
placeholder.
-/

variable {Hash : Type}

/-- How internal nodes are hashed, and the hash of an absent subtree. -/
structure Hasher (Hash : Type) where
  internal : Hash → Hash → Hash
  placeholder : Hash

/-- A node of the infinite tree. -/
structure Node where
  level : Nat
  index : Nat
  deriving DecidableEq, Repr

/-- The first leaf right of a node. -/
def Node.stop (node : Node) : Nat :=
  (node.index + 1) * 2 ^ node.level

variable (hasher : Hasher Hash) (leaf : Nat → Hash)

/-- The hash of a perfect subtree. -/
def subtreeHash : (level index : Nat) → Hash
  | 0, index => leaf index
  | level + 1, index =>
    hasher.internal (subtreeHash level (2 * index)) (subtreeHash level (2 * index + 1))

/-- The hash of a perfect subtree given by its root. -/
def Node.hash (node : Node) : Hash :=
  subtreeHash hasher leaf node.level node.index

/-- The hash of a node when only the first `count` leaves exist. -/
def paddedHash (count : Nat) : (level index : Nat) → Hash
  | 0, index => if index < count then leaf index else hasher.placeholder
  | level + 1, index =>
    if index * 2 ^ (level + 1) < count then
      hasher.internal (paddedHash count level (2 * index)) (paddedHash count level (2 * index + 1))
    else
      hasher.placeholder

/-- The root of the smallest padded tree over `count` leaves. -/
def rootHash (count : Nat) : Hash :=
  paddedHash hasher leaf count (.clog 2 count) 0

/--
The roots of the maximal perfect subtrees over `count` nodes of one level, from
left to right.
-/
def frozenNodes (level count : Nat) : List Node :=
  if count = 0 then
    []
  else
    frozenNodes (level + 1) (count / 2) ++
      if count % 2 = 1 then [⟨level, count - 1⟩] else []
termination_by count
decreasing_by omega

/--
The roots of the maximal perfect subtrees over the first `count` of the `2 ^ height`
level nodes below the node `index`, from left to right.
-/
def nodesBelow (level : Nat) : (height count index : Nat) → List Node
  | 0, _, _ => []
  | height + 1, count, index =>
    if 2 ^ height ≤ count then
      ⟨level + height, 2 * index⟩ :: nodesBelow level height (count - 2 ^ height) (2 * index + 1)
    else
      nodesBelow level height count (2 * index)

@[simp] theorem frozenNodes_zero (level : Nat) : frozenNodes level 0 = [] := by
  rw [frozenNodes, if_pos rfl]

theorem frozenNodes_even (level half : Nat) :
    frozenNodes level (2 * half) = frozenNodes (level + 1) half := by
  by_cases empty : half = 0
  · simp [empty]
  · rw [frozenNodes, if_neg (by omega), if_neg (by omega),
      Nat.mul_div_cancel_left half (by decide), append_nil]

theorem frozenNodes_odd (level half : Nat) :
    frozenNodes level (2 * half + 1) = frozenNodes (level + 1) half ++ [⟨level, 2 * half⟩] := by
  have halved : (2 * half + 1) / 2 = half := by omega
  rw [frozenNodes, if_neg (by omega), if_pos (by omega), halved, Nat.add_sub_cancel]

theorem frozenNodes_two_pow_mul (level zeros count : Nat) :
    frozenNodes level (2 ^ zeros * count) = frozenNodes (level + zeros) count := by
  induction zeros generalizing level with
  | zero => simp
  | succ zeros ih =>
    have doubled : 2 ^ (zeros + 1) * count = 2 * (2 ^ zeros * count) := by ring
    rw [doubled, frozenNodes_even, ih]
    congr 1
    omega

theorem frozenNodes_eq_nil_iff {level count : Nat} : frozenNodes level count = [] ↔ count = 0 := by
  constructor
  · intro empty
    induction count using Nat.evenOddRec generalizing level with
    | h0 => rfl
    | h_even half ih =>
      rw [frozenNodes_even] at empty
      rw [ih empty]
    | h_odd half => simp [frozenNodes_odd] at empty
  · intro empty
    rw [empty, frozenNodes_zero]

variable {level count : Nat}

/-- The decomposition lies left of its last leaf. -/
theorem stop_le_of_mem_frozenNodes {node : Node} (member : node ∈ frozenNodes level count) :
    node.stop ≤ count * 2 ^ level := by
  induction count using Nat.evenOddRec generalizing level with
  | h0 => simp at member
  | h_even half ih =>
    rw [frozenNodes_even] at member
    have bound := ih member
    rw [pow_succ] at bound
    linarith
  | h_odd half ih =>
    rw [frozenNodes_odd, mem_append, mem_singleton] at member
    rcases member with inHalf | isLast
    · have bound := ih inHalf
      rw [pow_succ] at bound
      nlinarith [Nat.two_pow_pos level]
    · subst isLast
      exact Nat.le_refl _

/-- The decomposition has one subtree for each set bit. -/
theorem length_frozenNodes (fits : count < 2 ^ 64) :
    (frozenNodes level count).length = Word64.countOnes count := by
  induction count using Nat.evenOddRec generalizing level with
  | h0 =>
    rw [frozenNodes_zero]
    rfl
  | h_even half ih =>
    rw [frozenNodes_even, Word64.countOnes_eq fits, ih (by omega)]
    simp
  | h_odd half ih =>
    have halved : (2 * half + 1) / 2 = half := by omega
    have lowest : (2 * half + 1) % 2 = 1 := by omega
    rw [frozenNodes_odd, Word64.countOnes_eq fits, halved, lowest,
      length_append, ih (by omega), length_singleton, Nat.add_comm]

/-- The lowest subtree of a block comes last. -/
theorem nodesBelow_succ {height index : Nat} (inside : count < 2 ^ (height + 1)) :
    nodesBelow level (height + 1) count index = nodesBelow (level + 1) height (count / 2) index ++
      if count % 2 = 1 then
        [⟨level, 2 ^ (height + 1) * index + (count - 1)⟩]
      else
        [] := by
  induction height generalizing count index with
  | zero =>
    have cases : count = 0 ∨ count = 1 := by omega
    rcases cases with rfl | rfl
    · simp [nodesBelow]
    · simp [nodesBelow]
  | succ height ih =>
    have levels : level + 1 + height = level + (height + 1) := by omega
    rw [nodesBelow.eq_2 level, nodesBelow.eq_2 (level + 1), levels]
    by_cases large : 2 ^ (height + 1) ≤ count
    · have halved : (count - 2 ^ (height + 1)) / 2 = count / 2 - 2 ^ height := by omega
      have parity : (count - 2 ^ (height + 1)) % 2 = count % 2 := by omega
      rw [if_pos large, if_pos (by omega : 2 ^ height ≤ count / 2),
        ih (by omega), halved, parity, cons_append]
      by_cases odd : count % 2 = 1
      · have position :
            2 ^ (height + 1) * (2 * index + 1) + (count - 2 ^ (height + 1) - 1) =
              2 ^ (height + 1 + 1) * index + (count - 1) := by
          have expanded : 2 ^ (height + 1) * (2 * index + 1) =
                2 ^ (height + 1 + 1) * index + 2 ^ (height + 1) := by
            ring
          omega
        rw [if_pos odd, if_pos odd, position]
      · rw [if_neg odd, if_neg odd]
    · have position : 2 ^ (height + 1) * (2 * index) = 2 ^ (height + 1 + 1) * index := by ring
      rw [if_neg large, if_neg (by omega : ¬2 ^ height ≤ count / 2), ih (by omega), position]

/-- A decomposition splits at every boundary of a larger block. -/
theorem frozenNodes_split {level height block rest : Nat} (inside : rest < 2 ^ height) :
    frozenNodes level (2 ^ height * block + rest) =
      frozenNodes (level + height) block ++ nodesBelow level height rest block := by
  induction height generalizing level rest with
  | zero =>
    have empty : rest = 0 := by omega
    subst empty
    simp [nodesBelow]
  | succ height ih =>
    have power : 2 ^ (height + 1) * block = 2 * (2 ^ height * block) := by ring
    have levels : level + (height + 1) = level + 1 + height := by omega
    have halfInside : rest / 2 < 2 ^ height := by omega
    rw [nodesBelow_succ inside, levels, ← append_assoc, ← ih halfInside, power]
    by_cases odd : rest % 2 = 1
    · have shape : 2 * (2 ^ height * block) + rest = 2 * (2 ^ height * block + rest / 2) + 1 := by
        omega
      have position :
          2 * (2 ^ height * block + rest / 2) = 2 * (2 ^ height * block) + (rest - 1) := by
        omega
      rw [shape, frozenNodes_odd, if_pos odd, position]
    · have shape : 2 * (2 ^ height * block) + rest = 2 * (2 ^ height * block + rest / 2) := by omega
      rw [shape, frozenNodes_even, if_neg odd, append_nil]

theorem frozenNodes_eq_nodesBelow {height : Nat} (inside : count < 2 ^ height) :
    frozenNodes 0 count = nodesBelow 0 height count 0 := by
  have split := @frozenNodes_split 0 height 0 count inside
  simpa using split

variable {index : Nat}

theorem paddedHash_of_le_first (absent : count ≤ index * 2 ^ level) :
    paddedHash hasher leaf count level index = hasher.placeholder := by
  cases level with
  | zero => rw [paddedHash, if_neg (by omega)]
  | succ level => rw [paddedHash, if_neg (by omega)]

theorem paddedHash_succ (present : index * 2 ^ (level + 1) < count) :
    paddedHash hasher leaf count (level + 1) index =
      hasher.internal (paddedHash hasher leaf count level (2 * index))
        (paddedHash hasher leaf count level (2 * index + 1)) := by
  rw [paddedHash, if_pos present]

theorem paddedHash_of_stop_le (complete : (index + 1) * 2 ^ level ≤ count) :
    paddedHash hasher leaf count level index = subtreeHash hasher leaf level index := by
  induction level generalizing index with
  | zero => rw [paddedHash, if_pos (by omega), subtreeHash]
  | succ level ih =>
    have positive := Nat.two_pow_pos level
    have power : 2 ^ (level + 1) = 2 * 2 ^ level := by ring
    have leftComplete : (2 * index + 1) * 2 ^ level ≤ count := by nlinarith
    have rightComplete : (2 * index + 1 + 1) * 2 ^ level ≤ count := by nlinarith
    rw [paddedHash_succ hasher leaf (by nlinarith), ih leftComplete, ih rightComplete, subtreeHash]

end Diem.MerkleForest
