import Diem.CompressedTrie

namespace Diem

/-!
# Sparse Merkle trees

The hash of a binary compressed trie, and the paths of siblings that prove what the
trie holds at a key.  With hash functions that have no collisions, a path that leads
from a leaf or from an empty subtree to the root hash is the path of the trie.
-/

/-- The hash functions of a sparse Merkle tree. -/
structure SparseHasher (Key Value Hash : Type) where
  placeholder : Hash
  hashValue : Value → Hash
  leaf : Key → Hash → Hash
  internal : Hash → Hash → Hash

namespace SparseHasher

variable {Key Value Hash : Type} (hasher : SparseHasher Key Value Hash)

/-- Different things have different hashes. -/
structure CollisionFree : Prop where
  hashValue_injective : Function.Injective hasher.hashValue
  leaf_injective : ∀ {key key' hash hash'}, hasher.leaf key hash = hasher.leaf key' hash' →
    key = key' ∧ hash = hash'
  internal_injective :
    ∀ {left right left' right'}, hasher.internal left right = hasher.internal left' right' →
      left = left' ∧ right = right'
  leaf_ne_internal : ∀ {key hash left right}, hasher.leaf key hash ≠ hasher.internal left right
  leaf_ne_placeholder : ∀ {key hash}, hasher.leaf key hash ≠ hasher.placeholder
  placeholder_ne_internal : ∀ {left right}, hasher.placeholder ≠ hasher.internal left right

/-- The hash of an internal node, given the child on the side of the bit. -/
def parent (bit : Bool) (sibling hash : Hash) : Hash :=
  if bit then hasher.internal sibling hash else hasher.internal hash sibling

/-- The root hash that siblings lead to, from the top to the bottom. -/
def climb : List Bool → List Hash → Hash → Hash
  | bit :: bits, sibling :: siblings, hash =>
    hasher.parent bit sibling (climb bits siblings hash)
  | _, _, hash => hash

/-- The hash of a leaf, or of an empty subtree. -/
def Terminal (hash : Hash) : Prop :=
  hash = hasher.placeholder ∨ ∃ key value, hash = hasher.leaf key value

end SparseHasher

namespace CompressedTrie

variable {Key Value Hash : Type}

/-- The root hash of a binary trie. -/
def hash (hasher : SparseHasher Key Value Hash) :
    CompressedTrie Bool Unit Key Value → Hash
  | .empty => hasher.placeholder
  | .leaf _ key value => hasher.leaf key (hasher.hashValue value)
  | .node _ children => hasher.internal ((children false).hash hasher) ((children true).hash hasher)

/-- Follow the bits; the hashes of the siblings and the subtree at the end. -/
def descend (hasher : SparseHasher Key Value Hash) :
    CompressedTrie Bool Unit Key Value → List Bool →
    List Hash × CompressedTrie Bool Unit Key Value
  | .node _ children, bit :: bits =>
    let below := (children bit).descend hasher bits
    ((children !bit).hash hasher :: below.1, below.2)
  | trie, _ => ([], trie)

section Facts

variable {hasher : SparseHasher Key Value Hash}

@[simp] theorem descend_empty (bits : List Bool) :
    (.empty : CompressedTrie Bool Unit Key Value).descend hasher bits = ([], .empty) := by
  cases bits <;> rfl

@[simp] theorem descend_leaf (tag : Unit) (key : Key) (value : Value) (bits : List Bool) :
    (.leaf tag key value : CompressedTrie Bool Unit Key Value).descend hasher bits =
      ([], .leaf tag key value) := by
  cases bits <;> rfl

variable (trie : CompressedTrie Bool Unit Key Value)

@[simp] theorem descend_nil : trie.descend hasher [] = ([], trie) := by
  cases trie <;> rfl

@[simp] theorem descend_node (tag : Unit) (children : Bool → CompressedTrie Bool Unit Key Value)
    (bit : Bool) (bits : List Bool) :
    (CompressedTrie.node tag children).descend hasher (bit :: bits) =
      ((children !bit).hash hasher :: ((children bit).descend hasher bits).1,
        ((children bit).descend hasher bits).2) :=
  rfl

theorem descend_length_le (bits : List Bool) :
    (trie.descend hasher bits).1.length ≤ bits.length := by
  induction bits generalizing trie with
  | nil => simp
  | cons bit bits ih =>
    cases trie with
    | empty => simp
    | leaf => simp
    | node tag children => simpa using ih (children bit)

/-- A descent goes on from where the first bits lead. -/
theorem descend_append (first second : List Bool) :
    trie.descend hasher (first ++ second) =
      ((trie.descend hasher first).1 ++ ((trie.descend hasher first).2.descend hasher second).1,
        ((trie.descend hasher first).2.descend hasher second).2) := by
  induction first generalizing trie with
  | nil => simp
  | cons bit first ih =>
    cases trie with
    | empty => simp
    | leaf => simp
    | node tag children =>
      rw [List.cons_append, descend_node, descend_node, ih (children bit)]
      rfl

variable {trie : CompressedTrie Bool Unit Key Value} {bits : List Bool}

/-- A descent that ends at a node has used up the bits. -/
theorem length_descend_of_node {tag : Unit} {children : Bool → CompressedTrie Bool Unit Key Value}
    (reached : (trie.descend hasher bits).2 = .node tag children) :
    (trie.descend hasher bits).1.length = bits.length := by
  induction bits generalizing trie with
  | nil => simp
  | cons bit bits ih =>
    cases trie with
    | empty => simp at reached
    | leaf => simp at reached
    | node tag' children' => simp [ih reached]

/-- The siblings of a descent lead back to the root. -/
theorem climb_descend (trie : CompressedTrie Bool Unit Key Value) (bits : List Bool) :
    hasher.climb bits (trie.descend hasher bits).1 ((trie.descend hasher bits).2.hash hasher) =
      trie.hash hasher := by
  induction bits generalizing trie with
  | nil => simp [SparseHasher.climb]
  | cons bit bits ih =>
    cases trie with
    | empty => simp [SparseHasher.climb]
    | leaf => simp [SparseHasher.climb]
    | node tag children =>
      rw [descend_node, SparseHasher.climb, ih]
      cases bit <;> rfl

/-- Siblings that lead from a terminal hash to the root are those of the trie. -/
theorem descend_eq_of_climb (free : hasher.CollisionFree) {siblings : List Hash} {start : Hash}
    (terminal : hasher.Terminal start) (short : siblings.length ≤ bits.length)
    (climbs : hasher.climb bits siblings start = trie.hash hasher) :
    (trie.descend hasher bits).1 = siblings ∧ (trie.descend hasher bits).2.hash hasher = start := by
  induction siblings generalizing trie bits with
  | nil =>
    have same : start = trie.hash hasher := by
      cases bits <;> exact climbs
    -- a terminal hash is not the hash of a node
    cases trie with
    | empty => simp [same]
    | leaf => simp [same]
    | node tag children =>
      rcases terminal with rfl | ⟨key, value, rfl⟩
      · exact (free.placeholder_ne_internal same).elim
      · exact (free.leaf_ne_internal same).elim
  | cons sibling siblings ih =>
    cases bits with
    | nil => simp at short
    | cons bit bits =>
      cases trie with
      | empty => cases bit <;> exact (free.placeholder_ne_internal climbs.symm).elim
      | leaf => cases bit <;> exact (free.leaf_ne_internal climbs.symm).elim
      | node tag children =>
        have parts : sibling = (children !bit).hash hasher ∧
              hasher.climb bits siblings start = (children bit).hash hasher := by
          cases bit
          · exact (free.internal_injective climbs).symm
          · exact free.internal_injective climbs
        obtain ⟨rest, final⟩ := ih (Nat.le_of_succ_le_succ short) parts.2
        rw [descend_node]
        exact ⟨by rw [rest, parts.1], final⟩

variable {path : Key → List Bool} {items : Key → Option Value}

/-- The subtree at the end of a descent is the one below the bits followed. -/
theorem Represents.descend {front : List Bool} (represents : Represents path items front trie)
    (hasher : SparseHasher Key Value Hash) (bits : List Bool) :
    Represents path items (front ++ bits.take (trie.descend hasher bits).1.length)
      (trie.descend hasher bits).2 := by
  induction bits generalizing trie front with
  | nil => simpa using represents
  | cons bit bits ih =>
    cases trie with
    | empty => simpa using represents
    | leaf => simpa using represents
    | node tag children =>
      cases represents with
      | node _ _ _ below =>
        have rest := ih (below bit)
        rw [List.append_assoc] at rest
        exact rest

/-- The end of a descent along a key is empty, the key's leaf or another leaf. -/
theorem Represents.descend_cases {height : Nat} (uniform : UniformPaths path height)
    (represents : Represents path items [] trie) (key : Key) :
    ((trie.descend hasher (path key)).2 = .empty ∧ items key = none) ∨
    (∃ value, (trie.descend hasher (path key)).2 = .leaf () key value ∧ items key = some value) ∨
    (∃ other value, (trie.descend hasher (path key)).2 = .leaf () other value ∧
      other ≠ key ∧ items other = some value ∧ items key = none ∧
      (path key).take (trie.descend hasher (path key)).1.length <+: path other) := by
  have final := represents.descend hasher (path key)
  have starts : (path key).take (trie.descend hasher (path key)).1.length <+: path key :=
    List.take_prefix _ _
  generalize reached : (trie.descend hasher (path key)).2 = last at final
  cases last with
  | empty => exact .inl ⟨rfl, final.items_eq_none starts⟩
  | leaf tag other value =>
    by_cases same : other = key
    · subst same
      cases final with
      | leaf _ stored _ => exact .inr (.inl ⟨value, rfl, stored⟩)
    · have absent := final.items_leaf starts (.symm same)
      cases final with
      | leaf otherStarts stored _ =>
        exact .inr (.inr ⟨other, value, rfl, same, stored, absent, otherStarts⟩)
  | node tag children =>
    -- a descent only stops at a node when the bits are used up
    have whole : (path key).take (trie.descend hasher (path key)).1.length = path key := by
      apply List.take_of_length_le
      exact (length_descend_of_node reached).ge
    rw [whole] at final
    exact (uniform.not_node final).elim

end Facts

end CompressedTrie

end Diem
