import Diem.JellyfishNodeSpec
import Diem.JellyfishReads

namespace Diem

open NibblePath SparseMerkleProof AccountKey List

/-!
# Account state proofs are sound and complete

A tree holds a state if its nodes split the keys of the state by nibbles down to
single leaves, and record the hashes of their children.  Looking up a key in such a
tree follows the binary tree of the state, so the value and the proof it returns are
those of the state.
-/

open CompressedTrie

variable {Value : Type}

namespace TreeReader

/-- A stored node, with all nodes below it, holds the keys below a path. -/
inductive HoldsBelow (hasher : StateHasher Value) (reader : TreeReader Value)
    (items : AccountKey → Option Value) : NibblePath → Node Value → Prop where
  | leaf
      {front : NibblePath}
      {key : AccountKey}
      {value : Value} :
      front <+: key.nibbles →
      items key = some value →
      (∀ other, Below nibbles items front other → other = key) →
      HoldsBelow hasher reader items front (.leaf (.new hasher key value))
  | internal
      {front : NibblePath}
      {node : InternalNode}
      {childNodes : Nibble → Node Value}
      {first second : AccountKey} :
      Below nibbles items front first →
      Below nibbles items front second →
      first ≠ second →
      (∀ nibble, node.children nibble = none →
        ∀ key, ¬ Below nibbles items (front ++ [nibble]) key) →
      (∀ nibble child, node.children nibble = some child →
        reader ⟨child.version, front ++ [nibble]⟩ = some (childNodes nibble) ∧
          child.hash = (childNodes nibble).hash hasher ∧
          child.isLeaf = (childNodes nibble).isLeaf) →
      (∀ nibble child, node.children nibble = some child →
        HoldsBelow hasher reader items (front ++ [nibble]) (childNodes nibble)) →
      HoldsBelow hasher reader items front (.internal node)

/-- The tree with the root at a version holds a state. -/
def Holds (hasher : StateHasher Value) (reader : TreeReader Value) (version : Nat)
    (items : AccountKey → Option Value) : Prop :=
  (reader (.newEmptyPath version) = some .null ∧ ∀ key, items key = none) ∨
    ∃ root,
      reader (.newEmptyPath version) = some root ∧ HoldsBelow hasher reader items [] root

end TreeReader

section Below

variable {items : AccountKey → Option Value} {front : NibblePath}

theorem below_bits_iff {key : AccountKey} :
    Below AccountKey.bits items (bits front) key ↔ Below nibbles items front key := by
  rw [Below, Below, AccountKey.bits, bits_prefix_iff]

end Below

namespace TreeReader

variable {hasher : StateHasher Value}
  {reader : TreeReader Value} {items : AccountKey → Option Value}
  {front : NibblePath} {node : Node Value}

variable (hasher items front node) in
/-- The binary tree behind a stored node. -/
structure Stands (trie : BinaryTrie Value) : Prop where
  represents : Represents AccountKey.bits items (bits front) trie
  present : trie ≠ .empty
  hash : node.hash hasher = trie.hash hasher
  isLeaf : node.isLeaf = true ↔ ∃ key value, trie = .leaf () key value

variable {key : AccountKey}

theorem leaf_stands {value : Value} (starts : front <+: key.nibbles)
    (stored : items key = some value)
    (only : ∀ other, Below nibbles items front other → other = key) :
    Stands hasher items front (.leaf (.new hasher key value)) (.leaf () key value) where
  represents := .leaf (bits_prefix_iff.mpr starts) stored
    fun other below => only other (below_bits_iff.mp below)
  present := by simp
  hash := rfl
  isLeaf := by simp [Node.isLeaf]

section Internal

variable {node : InternalNode} {first second : AccountKey}
  (firstBelow : Below nibbles items front first)
  (secondBelow : Below nibbles items front second) (different : first ≠ second)
include firstBelow secondBelow different

/-- An internal node reflects the binary trees behind its children. -/
theorem internal_reflects {childNodes : Nibble → Node Value}
    (absent :
      ∀ nibble, node.children nibble = none → ∀ key, ¬ Below nibbles items (front ++ [nibble]) key)
    (linked : ∀ nibble child, node.children nibble = some child →
      reader ⟨child.version, front ++ [nibble]⟩ = some (childNodes nibble) ∧
        child.hash = (childNodes nibble).hash hasher ∧
        child.isLeaf = (childNodes nibble).isLeaf)
    (stands : ∀ nibble child, node.children nibble = some child →
      ∃ trie, Stands hasher items (front ++ [nibble]) (childNodes nibble) trie) :
    ∃ subtries, node.Reflects hasher items front subtries := by
  have each : ∀ nibble, ∃ trie : BinaryTrie Value,
      Represents AccountKey.bits items (bits front ++ nibble.bits) trie ∧
        Child.Reflects hasher (node.children nibble) trie := by
    intro nibble
    have shape : bits (front ++ [nibble]) = bits front ++ nibble.bits := by simp
    cases found : node.children nibble with
    | none =>
      refine ⟨.empty, .empty fun key below => ?_, rfl⟩
      rw [← shape, below_bits_iff] at below
      exact absent nibble found key below
    | some child =>
      obtain ⟨trie, represents, present, hash, isLeaf⟩ := stands nibble child found
      obtain ⟨-, childHash, childLeaf⟩ := linked nibble child found
      rw [shape] at represents
      exact ⟨trie, represents, present, childHash.trans hash, by rw [childLeaf]; exact isLeaf⟩
  choose subtries represents children using each
  exact ⟨subtries,
    uniform_nibbles.front_length_lt firstBelow.1 secondBelow.1 different, represents, children⟩

/-- The node of an internal node's keys, in the binary tree. -/
theorem internal_stands {subtries : Nibble → BinaryTrie Value}
    (reflects : node.Reflects hasher items front subtries) :
    ∃ children, Stands hasher items front (.internal node) (.node () children) := by
  obtain ⟨trie, represents⟩ := exists_represents AccountKey.uniform_bits items () (bits front)
  have hash := InternalNode.hash_eq reflects represents
  cases represents with
  | empty none => exact (none first (below_bits_iff.mpr firstBelow)).elim
  | leaf _ _ only =>
    have firstOnly := only first (below_bits_iff.mpr firstBelow)
    have secondOnly := only second (below_bits_iff.mpr secondBelow)
    exact (different (firstOnly.trans secondOnly.symm)).elim
  | node one two apart children =>
    exact ⟨_, .node one two apart children, by simp, hash, by simp [Node.isLeaf]⟩

end Internal

theorem HoldsBelow.stands (holds : HoldsBelow hasher reader items front node) :
    ∃ trie, Stands hasher items front node trie := by
  induction holds with
  | leaf starts stored only => exact ⟨_, leaf_stands starts stored only⟩
  | internal first second different absent linked _ ih =>
    obtain ⟨subtries, reflects⟩ := internal_reflects first second different absent linked ih
    obtain ⟨children, stands⟩ := internal_stands first second different reflects
    exact ⟨_, stands⟩

variable (hasher) in
/-- What a lookup returns after a descent. -/
def proved (key : AccountKey) (siblings : List HashValue) :
    BinaryTrie Value → Option Value × SparseMerkleProof
  | .leaf _ leafKey value =>
    (if leafKey = key then some value else none,
      ⟨some ⟨leafKey, hasher.hashValue value⟩, siblings.reverse⟩)
  | _ => (none, ⟨none, siblings.reverse⟩)

variable {nodeKey : NodeKey}

theorem getNextNode_eq (lookup : reader nodeKey = some node) (version nibbleDepth : Nat) :
    reader.getNextNode version nibbleDepth nodeKey = .ok node := by
  rw [getNextNode, getNode, lookup]
  split <;> rfl

variable {version : Nat}

/-- The loop follows the binary tree from a stored node on. -/
theorem getWithProofFrom_eq (holds : HoldsBelow hasher reader items front node)
    {loops nibbleDepth : Nat} {nibbles : NibblePath} {siblings : List HashValue}
    {trie : BinaryTrie Value} (lookup : reader nodeKey = some node)
    (position : nodeKey.nibblePath = front)
    (represents : Represents AccountKey.bits items (bits front) trie)
    (onPath : node.isLeaf = true ∨ front ++ nibbles = key.nibbles)
    (enough : rootNibbleHeight + 1 ≤ loops + front.length) :
    reader.getWithProofFrom hasher key version loops nibbleDepth nodeKey nibbles siblings =
      .ok (proved hasher key (siblings ++ (trie.descend hasher (bits nibbles)).1)
        (trie.descend hasher (bits nibbles)).2) := by
  induction holds generalizing loops nibbleDepth nodeKey nibbles siblings trie with
  | @leaf front leafKey value starts stored only =>
    have bound := starts.length_le
    rw [AccountKey.length] at bound
    obtain ⟨loops, rfl⟩ : ∃ rest, loops = rest + 1 := ⟨loops - 1, by omega⟩
    have stands := @leaf_stands _ hasher _ _ _ _ starts stored only
    obtain rfl := represents.unique stands.represents
    rw [getWithProofFrom, getNextNode_eq lookup, descend_leaf, append_nil]
    rfl
  | @internal front internalNode childNodes first second firstBelow
      secondBelow different absent linked children ih =>
      have short := uniform_nibbles.front_length_lt firstBelow.1 secondBelow.1 different
      obtain ⟨loops, rfl⟩ : ∃ rest, loops = rest + 1 := ⟨loops - 1, by omega⟩
      have whole : front ++ nibbles = key.nibbles := by simpa [Node.isLeaf] using onPath
      cases nibbles with
      | nil =>
        have lengths := congrArg length whole
        rw [append_nil, key.length] at lengths
        omega
      | cons nibble nibbles =>
        obtain ⟨subtries, reflects⟩ :=
          internal_reflects firstBelow secondBelow different absent linked
            fun nibble child found => (children nibble child found).stands
        obtain ⟨halves, stands⟩ := internal_stands firstBelow secondBelow different reflects
        obtain rfl := represents.unique stands.represents
        obtain ⟨sameSiblings, next⟩ :=
          InternalNode.getChildWithSiblings_follows reflects nodeKey nibble stands.represents
        rw [getWithProofFrom, getNextNode_eq lookup, bits_cons, descend_append]
        simp only [Fallible.ok_bind, sameSiblings]
        rcases next with
          ⟨noChild, empty⟩ | ⟨only, child, found, childKey, below, source⟩
        · rw [noChild, empty, descend_empty, append_nil]
          rfl
        · obtain ⟨childLookup, -, childLeaf⟩ := linked only child found
          have childStands := reflects.children only
          rw [found] at childStands
          rw [childKey, below, ← append_assoc]
          have childRepresents := reflects.represents only
          rw [show bits front ++ only.bits = bits (front ++ [only]) by simp] at childRepresents
          refine ih only child found ?_ ?_ childRepresents ?_ ?_
          · rw [NodeKey.genChildNodeKey, position]
            exact childLookup
          · rw [NodeKey.genChildNodeKey, position]
          · rcases source with rfl | leaf
            · right
              rw [append_assoc]
              exact whole
            · left
              rw [← childLeaf]
              exact childStands.2.2.mpr leaf
          · rw [length_append, length_singleton]
            omega

theorem represents_nothing (none : ∀ key, items key = none) :
    Represents AccountKey.bits items [] (.empty : BinaryTrie Value) := by
  refine .empty fun key below => ?_
  obtain ⟨-, value, stored⟩ := below
  rw [none key] at stored
  cases stored

theorem proved_stateDescent (hasher : StateHasher Value)
    (items : AccountKey → Option Value) (key : AccountKey) :
    proved hasher key (stateDescent hasher items key).1 (stateDescent hasher items key).2 =
      (items key, ofState hasher items key) := by
  rcases stateDescent_cases hasher items key with
    ⟨reached, absent⟩ | ⟨value, reached, present⟩ |
    ⟨other, value, reached, different, -, absent, -⟩
  · simp [proved, ofState, reached, absent]
  · simp [proved, ofState, reached, present]
  · simp [proved, ofState, reached, absent, different]

/-- A lookup returns the value and the proof of the state. -/
theorem getWithProof_eq (holds : reader.Holds hasher version items) (key : AccountKey) :
    reader.getWithProof hasher key version = .ok (items key, ofState hasher items key) := by
  rw [← proved_stateDescent]
  rcases holds with ⟨null, none⟩ | ⟨root, lookup, holds⟩
  · rw [getWithProof, getWithProofFrom, getNextNode_eq null, stateDescent,
      canonicalTrie_eq (represents_nothing none), descend_empty]
    rfl
  · exact getWithProofFrom_eq holds lookup rfl (canonicalTrie_represents items) (.inr rfl) le_rfl

/-- The root hash of a tree is the root hash of the state it holds. -/
theorem getRootHash_eq (holds : reader.Holds hasher version items) :
    reader.getRootHash hasher version = .ok (stateRoot hasher items) := by
  rcases holds with ⟨null, none⟩ | ⟨root, lookup, holds⟩
  · rw [getRootHash, getRootNode, null, stateRoot_eq hasher (represents_nothing none)]
    rfl
  · obtain ⟨trie, stands⟩ := holds.stands
    rw [getRootHash, getRootNode, lookup, stateRoot_eq hasher stands.represents, ← stands.hash]
    rfl

/--
An accepted proof tells the value of a key in the state with the root hash, and the
proof that a tree of the state returns is accepted.
-/
theorem proofs_sound_and_complete
    (hasher : StateHasher Value)
    (free : hasher.CollisionFree)
    (items : AccountKey → Option Value) :
    (∀ (key : AccountKey) (value : Option Value) (proof : SparseMerkleProof),
      proof.verify hasher (stateRoot hasher items) key value = .ok () →
      items key = value) ∧
    (∀ (reader : TreeReader Value) (version : Nat), reader.Holds hasher version items →
      ∀ key, ∃ proof, reader.getWithProof hasher key version = .ok (items key, proof) ∧
        proof.verify hasher (stateRoot hasher items) key (items key) = .ok ()) := by
  constructor
  · intro key value proof accepted
    exact verify_sound free accepted
  · intro reader version holds key
    exact ⟨_, getWithProof_eq holds key, ofState_verify hasher items key⟩

def repeatedKey (nibble : Nibble) : AccountKey where
  nibbles := replicate rootNibbleHeight nibble
  length := length_replicate

/-- The state with two accounts. -/
def pairState (key : AccountKey) : Option Nat :=
  if key = repeatedKey 5 then some 7 else if key = repeatedKey 9 then some 8 else none

def pairLeaf (nibble : Nibble) (value : Nat) : Node Nat :=
  .leaf (.new symbolicHasher (repeatedKey nibble) value)

/-- Its tree: an internal node with two leaves. -/
def pairTree : TreeReader Nat
  | ⟨3, []⟩ =>
    let children nibble := (pairState (repeatedKey nibble)).map fun value =>
      ⟨(pairLeaf nibble value).hash symbolicHasher, 3, .leaf⟩
    some (.internal (.ofChildren children false))
  | ⟨3, [nibble]⟩ => (pairState (repeatedKey nibble)).map (pairLeaf nibble)
  | _ => none

theorem pairState_below {nibble : Nibble} {key : AccountKey}
    (below : Below nibbles pairState [nibble] key) : key = repeatedKey nibble := by
  obtain ⟨⟨rest, starts⟩, value, found⟩ := below
  have isPair : key = repeatedKey 5 ∨ key = repeatedKey 9 := by
    by_contra neither
    simp_all [pairState]
  rcases isPair with rfl | rfl <;> rw [(cons.inj starts).1]

theorem pairTree_holds : pairTree.Holds symbolicHasher 3 pairState := by
  refine .inr ⟨_, rfl, @HoldsBelow.internal _ _ _ _ _ _
    (fun nibble => pairLeaf nibble ((pairState (repeatedKey nibble)).getD 0))
    (repeatedKey 5) (repeatedKey 9) ⟨ nil_prefix, 7, by decide⟩ ⟨ nil_prefix, 8, by decide⟩
    (by decide) ?_ ?_ ?_⟩
  · intro nibble absent key below
    obtain ⟨-, value, found⟩ := id below
    rw [pairState_below below] at found
    cases found.symm.trans (Option.map_eq_none_iff.mp absent)
  · intro nibble child found
    obtain ⟨value, stored, rfl⟩ := Option.map_eq_some_iff.mp found
    rw [stored]
    exact ⟨by rw [nil_append, pairTree, stored]; rfl, rfl, rfl⟩
  · intro nibble child found
    obtain ⟨value, stored, rfl⟩ := Option.map_eq_some_iff.mp found
    rw [stored]
    exact .leaf ⟨_, rfl⟩ stored fun _ => pairState_below

theorem proofs_sound_and_complete_pair :
    (∃ proof, pairTree.getWithProof symbolicHasher (repeatedKey 9) 3 = .ok (some 8, proof) ∧
      proof.siblings.length = 1 ∧
      proof.verify symbolicHasher (stateRoot symbolicHasher pairState)
        (repeatedKey 9) (some 8) = .ok ()) ∧
    ∀ proof : SparseMerkleProof, proof.verify symbolicHasher (stateRoot symbolicHasher pairState)
      (repeatedKey 5) none ≠ .ok () := by
  have both := proofs_sound_and_complete symbolicHasher symbolicHasher_collisionFree pairState
  constructor
  · obtain ⟨proof, found, accepted⟩ := both.2 pairTree 3 pairTree_holds (repeatedKey 9)
    have value : pairState (repeatedKey 9) = some 8 := by decide
    rw [value] at found accepted
    have siblings : (pairTree.getWithProof symbolicHasher (repeatedKey 9) 3).map
      (·.2.siblings.length) = .ok 1 := by decide +kernel
    rw [found] at siblings
    exact ⟨proof, found, Except.ok.inj siblings, accepted⟩
  · intro proof accepted
    have value := both.1 (repeatedKey 5) none proof accepted
    cases value

end TreeReader

end Diem
