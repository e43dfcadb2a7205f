import Diem.JellyfishNode

namespace Diem

open NibblePath List

/-!
# Internal nodes stand for four levels of the binary tree

If the children of an internal node record the subtrees of the binary tree four
levels below, then the hash of the node is the hash of the binary tree, and the
siblings it contributes to a proof are the siblings of the binary tree.
-/

open CompressedTrie

variable {Value : Type} {trie : BinaryTrie Value} {inside : List Bool} {height : Nat}
  {key : AccountKey}

/-- The first nibble whose bits start with the given ones. -/
def rangeStart (inside : List Bool) : Nat :=
  inside.foldl (fun start bit => 2 * start + bit.toNat) 0 * 2 ^ (4 - inside.length)

theorem inRange_iff (lengths : height + inside.length = 4) (nibble : Nibble) :
    (rangeStart inside ≤ nibble.val ∧ nibble.val < rangeStart inside + 2 ^ height) ↔
      inside <+: nibble.bits := by
  have heights : height = 4 - inside.length := by omega
  subst heights
  match inside with
  | [] => revert nibble; decide
  | [first] => revert first nibble; decide
  | [first, second] => revert first second nibble; decide
  | [first, second, third] => revert first second third nibble; decide
  | [first, second, third, fourth] =>
    revert first second third fourth nibble
    decide
  | _ :: _ :: _ :: _ :: _ :: _ => simp at lengths

theorem rangeStart_append (lengths : height + 1 + inside.length = 4) (bit : Bool) :
    rangeStart (inside ++ [bit]) =
      if bit then rangeStart inside + 2 ^ height else rangeStart inside := by
  have heights : height = 3 - inside.length := by omega
  subst heights
  match inside with
  | [] => revert bit; decide
  | [first] => revert first bit; decide
  | [first, second] => revert first second bit; decide
  | [first, second, third] => revert first second third bit; decide
  | _ :: _ :: _ :: _ :: _ => simp at lengths; omega

/-- What a node records about a child is what the binary tree has there. -/
def Child.Reflects {Value : Type} (hasher : StateHasher Value) (child? : Option Child)
    (trie : BinaryTrie Value) : Prop :=
  match child? with
  | none => trie = .empty
  | some child =>
    trie ≠ .empty ∧ child.hash = trie.hash hasher ∧
      (child.isLeaf = true ↔ ∃ key value, trie = .leaf () key value)

/-- The subtrees of the binary tree at the children of a node. -/
structure InternalNode.Reflects {Value : Type} (hasher : StateHasher Value)
    (items : AccountKey → Option Value) (front : NibblePath) (node : InternalNode)
    (subtries : Nibble → BinaryTrie Value) : Prop where
  short : front.length < rootNibbleHeight
  represents :
    ∀ nibble, Represents AccountKey.bits items (bits front ++ nibble.bits) (subtries nibble)
  children : ∀ nibble, Child.Reflects hasher (node.children nibble) (subtries nibble)

namespace InternalNode

variable {hasher : StateHasher Value}
  {items : AccountKey → Option Value} {front : NibblePath} {node : InternalNode}
  {subtries : Nibble → BinaryTrie Value} (reflects : node.Reflects hasher items front subtries)

namespace Reflects

section

include reflects

variable (nibble : Nibble)

theorem isSome_iff : (node.children nibble).isSome = true ↔ subtries nibble ≠ .empty := by
  have child := reflects.children nibble
  cases found : node.children nibble <;> simp_all [Child.Reflects]

theorem isLeaf_iff :
    ((node.children nibble).map Child.isLeaf).getD false = true ↔
      ∃ key value, subtries nibble = .leaf () key value := by
  have child := reflects.children nibble
  cases found : node.children nibble <;> simp_all [Child.Reflects]

theorem child_hash :
    ((node.child nibble).map Child.hash).getD hasher.placeholder =
      (subtries nibble).hash hasher := by
  have child := reflects.children nibble
  cases found : node.children nibble <;>
    simp_all [Child.Reflects, InternalNode.child, CompressedTrie.hash]

/-- A key below some bits of the nibble is below a nibble with these bits. -/
theorem exists_nibble (short : inside.length ≤ 4)
    (below : Below AccountKey.bits items (bits front ++ inside) key) :
    ∃ nibble, inside <+: nibble.bits ∧ subtries nibble ≠ .empty ∧
      Below AccountKey.bits items (bits front ++ nibble.bits) key := by
  have starts : front <+: key.nibbles := bits_prefix_iff.mp below.of_append.1
  obtain ⟨nibble, next⟩ := AccountKey.exists_nibble starts reflects.short
  have at_nibble : Below AccountKey.bits items (bits front ++ nibble.bits) key :=
    ⟨(append_prefix_iff next (by simp)).mpr prefix_rfl, below.2⟩
  refine ⟨nibble, (append_prefix_iff next short).mp below.1, ?_, at_nibble⟩
  intro none
  have represents := reflects.represents nibble
  rw [none] at represents
  cases represents with
  | empty nothing => exact nothing key at_nibble

omit reflects in
theorem below_of_starts {nibble : Nibble} (starts : inside <+: nibble.bits)
    (below : Below AccountKey.bits items (bits front ++ nibble.bits) key) :
    Below AccountKey.bits items (bits front ++ inside) key := by
  obtain ⟨rest, shape⟩ := starts
  rw [← shape, ← append_assoc] at below
  exact below.of_append

/-- A child that exists has a key below it. -/
theorem exists_below {nibble : Nibble} (starts : inside <+: nibble.bits)
    (exists_ : subtries nibble ≠ .empty) :
    ∃ key, Below AccountKey.bits items (bits front ++ nibble.bits) key ∧
      Below AccountKey.bits items (bits front ++ inside) key := by
  have represents := reflects.represents nibble
  generalize subtries nibble = trie at represents exists_
  cases represents with
  | empty => exact (exists_ rfl).elim
  | leaf keyStarts stored _ =>
    exact ⟨_, ⟨keyStarts, _, stored⟩, below_of_starts starts ⟨keyStarts, _, stored⟩⟩
  | node below _ _ _ => exact ⟨_, below, below_of_starts starts below⟩

end

/-- Different nibbles have different keys below them. -/
theorem nibble_eq {nibble other : Nibble}
    (first : Below AccountKey.bits items (bits front ++ nibble.bits) key)
    (second : Below AccountKey.bits items (bits front ++ other.bits) key) : nibble = other := by
  have same := prefix_of_prefix_length_le first.1 second.1 (by simp)
  rw [prefix_append_right_inj] at same
  exact nibble_bits_injective (same.eq_of_length rfl)

end Reflects

section Range

variable (represents : Represents AccountKey.bits items (bits front ++ inside) trie)

namespace Reflects

include reflects represents

section

variable (short : inside.length ≤ 4)
include short

/-- The subtree of a range without children is empty. -/
theorem eq_empty_of_range (none : ∀ nibble, inside <+: nibble.bits → subtries nibble = .empty) :
    trie = .empty := by
  have nothing : ∀ key, ¬ Below AccountKey.bits items (bits front ++ inside) key := by
    intro key below
    obtain ⟨nibble, starts, exists_, -⟩ := reflects.exists_nibble short below
    exact exists_ (none nibble starts)
  exact represents.unique (.empty nothing)

/-- The subtree of a range whose only child is a leaf is that leaf. -/
theorem eq_leaf_of_range {only : Nibble} (starts : inside <+: only.bits)
    (alone : ∀ nibble, inside <+: nibble.bits → subtries nibble ≠ .empty → nibble = only)
    {value : Value} (leaf : subtries only = .leaf () key value) : trie = subtries only := by
  have child := reflects.represents only
  rw [leaf] at child ⊢
  cases child with
  | leaf keyStarts stored unique =>
    have below := (reflects.exists_below starts (by rw [leaf]; simp))
    obtain ⟨found, atChild, atRange⟩ := below
    obtain rfl := unique found atChild
    refine represents.unique (.leaf atRange.1 stored ?_)
    intro other otherBelow
    obtain ⟨nibble, inRange, exists_, atNibble⟩ := reflects.exists_nibble short otherBelow
    obtain rfl := alone nibble inRange exists_
    exact unique other atNibble

end

/-- The subtree of any other range is a node. -/
theorem node_of_range {first : Nibble} (starts : inside <+: first.bits)
    (exists_ : subtries first ≠ .empty)
    (more : (∃ second, inside <+: second.bits ∧ subtries second ≠ .empty ∧ second ≠ first) ∨
      ¬ ∃ key value, subtries first = .leaf () key value) :
    ∃ children, trie = .node () children := by
  obtain ⟨key, atFirst, below⟩ := reflects.exists_below starts exists_
  have another :
      ∃ other, Below AccountKey.bits items (bits front ++ inside) other ∧ other ≠ key := by
    rcases more with ⟨second, inRange, present, different⟩ | notLeaf
    · obtain ⟨other, atSecond, otherBelow⟩ := reflects.exists_below inRange present
      refine ⟨other, otherBelow, ?_⟩
      rintro rfl
      exact different (nibble_eq atSecond atFirst)
    · have child := reflects.represents first
      generalize subtries first = found at child exists_ notLeaf
      cases child with
      | empty => exact (exists_ rfl).elim
      | leaf => exact (notLeaf ⟨_, _, rfl⟩).elim
      | @node _ _ _ one two oneBelow twoBelow different _ =>
        by_cases same : one = key
        · exact ⟨two, below_of_starts starts twoBelow,
            fun same' => different (same.trans same'.symm)⟩
        · exact ⟨one, below_of_starts starts oneBelow, same⟩
  obtain ⟨other, otherBelow, different⟩ := another
  cases represents with
  | empty nothing => exact (nothing key below).elim
  | leaf _ _ unique =>
    exact (different ((unique other otherBelow).trans (unique key below).symm)).elim
  | node => exact ⟨_, rfl⟩

end Reflects

/-- The bitmaps tell the children below some bits of the nibble. -/
def BitmapsAgree (node : InternalNode) (inside : List Bool) (bitmaps : Bitmaps) : Prop :=
  ∀ nibble : Nibble, inside <+: nibble.bits →
    bitmaps.existence nibble = node.generateBitmaps.existence nibble ∧
      bitmaps.leaf nibble = node.generateBitmaps.leaf nibble

variable {bitmaps : Bitmaps} (lengths : height + inside.length = 4)
  (agree : node.BitmapsAgree inside bitmaps)
include lengths

/-- The ones of a bitmap in a range are those of any bitmap that agrees there. -/
theorem mem_ones_range {bitmap flags : Bitmap}
    (agree : ∀ nibble, inside <+: nibble.bits → bitmap nibble = flags nibble) {nibble : Nibble} :
    nibble ∈ Bitmap.ones (fun nibble => bitmap nibble &&
        (decide (rangeStart inside ≤ nibble.val) &&
          decide (nibble.val < rangeStart inside + 2 ^ height))) ↔
      inside <+: nibble.bits ∧ flags nibble = true := by
  rw [Bitmap.ones, mem_filter, Bool.and_eq_true, Bool.and_eq_true,
    decide_eq_true_eq, decide_eq_true_eq, inRange_iff lengths]
  constructor
  · rintro ⟨-, one, starts⟩
    exact ⟨starts, agree nibble starts ▸ one⟩
  · rintro ⟨starts, one⟩
    exact ⟨mem_finRange nibble, (agree nibble starts).trans one, starts⟩

include agree in
theorem BitmapsAgree.deeper (bits : List Bool) :
    node.BitmapsAgree (inside ++ bits) (bitmaps.rangeBitmaps (rangeStart inside) (2 ^ height)) := by
  intro nibble starts
  have inRange : inside <+: nibble.bits := (prefix_append inside bits).trans starts
  have position := (inRange_iff lengths nibble).mpr inRange
  have same := agree nibble inRange
  simp only [Bitmaps.rangeBitmaps, position.1, position.2, decide_true, Bool.and_true]
  exact same

include reflects agree represents

/-- What a range of children is in the binary tree. -/
theorem Reflects.range_cases :
    let range := bitmaps.rangeBitmaps (rangeStart inside) (2 ^ height)
    (range.existence.ones = [] ∧ trie = .empty) ∨
    (∃ only, range.existence.ones ≠ [] ∧ range.onlyChild height = some only ∧
      subtries only ≠ .empty ∧ trie = subtries only ∧
      (only.bits = inside ∨ ∃ key value, subtries only = .leaf () key value)) ∨
    (∃ children below, range.existence.ones ≠ [] ∧ range.onlyChild height = none ∧
      height = below + 1 ∧ trie = .node () children) := by
  intro range
  have inOnes : ∀ {nibble}, nibble ∈ range.existence.ones ↔
        inside <+: nibble.bits ∧ (node.children nibble).isSome = true :=
    mem_ones_range lengths fun nibble starts => (agree nibble starts).1
  have inLeaves : ∀ {nibble}, nibble ∈ range.leaf.ones ↔
        inside <+: nibble.bits ∧ ((node.children nibble).map Child.isLeaf).getD false = true :=
    mem_ones_range lengths fun nibble starts => (agree nibble starts).2
  have insideShort : inside.length ≤ 4 := by omega
  have nodup : range.existence.ones.Nodup := (nodup_finRange 16).filter _
  cases ones : range.existence.ones with
  | nil =>
    refine .inl ⟨rfl, reflects.eq_empty_of_range represents insideShort ?_⟩
    intro nibble starts
    by_contra exists_
    have member := inOnes.mpr ⟨starts, (reflects.isSome_iff nibble).mpr exists_⟩
    rw [show _ = range.existence.ones from rfl, ones] at member
    cases member
  | cons first rest =>
    have firstMember : first ∈ range.existence.ones := by
      rw [ones]
      exact mem_cons_self
    obtain ⟨starts, present⟩ := inOnes.mp firstMember
    rw [reflects.isSome_iff] at present
    rw [ones, nodup_cons] at nodup
    by_cases bottom : height = 0
    · have whole : first.bits = inside := (starts.eq_of_length (by
          rw [length_nibble_bits]; omega)).symm
      have only : range.onlyChild height = some first := by simp [Bitmaps.onlyChild, ones, bottom]
      refine .inr (.inl ⟨first, by simp, only, present, ?_, .inl whole⟩)
      have child := reflects.represents first
      rw [whole] at child
      exact represents.unique child
    · by_cases single : rest = [] ∧ range.leaf.ones ≠ []
      · have only : range.onlyChild height = some first := by
          simp [Bitmaps.onlyChild, ones, single.1, single.2]
        obtain ⟨nibble, leafMember⟩ := exists_mem_of_ne_nil _ single.2
        have alone :
            ∀ nibble, inside <+: nibble.bits → subtries nibble ≠ .empty → nibble = first := by
          intro other otherStarts otherPresent
          have member := inOnes.mpr ⟨otherStarts, (reflects.isSome_iff other).mpr otherPresent⟩
          rw [show _ = range.existence.ones from rfl, ones, single.1] at member
          exact mem_singleton.mp member
        obtain ⟨leafStarts, isLeaf⟩ := inLeaves.mp leafMember
        obtain ⟨key, value, leaf⟩ := (reflects.isLeaf_iff nibble).mp isLeaf
        obtain rfl := alone nibble leafStarts (by rw [leaf]; simp)
        refine .inr (.inl ⟨nibble, by simp, only, present, ?_, .inr ⟨key, value, leaf⟩⟩)
        exact reflects.eq_leaf_of_range represents insideShort starts alone leaf
      · have none : range.onlyChild height = none := by
          simp only [Bitmaps.onlyChild, ones]
          rw [if_neg]
          rintro (zero | both)
          · exact bottom zero
          · exact single both
        obtain ⟨below, rfl⟩ := Nat.exists_eq_succ_of_ne_zero bottom
        have more : (∃ second, inside <+: second.bits ∧ subtries second ≠ .empty ∧ second ≠ first) ∨
            ¬ ∃ key value, subtries first = .leaf () key value := by
          cases rest with
          | nil =>
            refine .inr ?_
            intro leaf
            refine single ⟨rfl, ?_⟩
            intro noLeaves
            have member := inLeaves.mpr ⟨starts, (reflects.isLeaf_iff first).mpr leaf⟩
            rw [show _ = range.leaf.ones from rfl, noLeaves] at member
            cases member
          | cons second rest =>
            have member : second ∈ range.existence.ones := by
              rw [ones]
              simp
            obtain ⟨secondStarts, secondPresent⟩ := inOnes.mp member
            refine .inl ⟨second, secondStarts, (reflects.isSome_iff second).mp secondPresent, ?_⟩
            rintro rfl
            exact nodup.1 mem_cons_self
        obtain ⟨children, shape⟩ := reflects.node_of_range represents starts present more
        exact .inr (.inr ⟨children, below, by simp, none, rfl, shape⟩)

/-- The hash over a range of children is the hash of the subtree they stand for. -/
theorem merkleHash_eq :
    node.merkleHash hasher height (rangeStart inside) bitmaps = trie.hash hasher := by
  induction height generalizing inside bitmaps trie with
  | zero =>
    rcases reflects.range_cases represents lengths agree with
      ⟨ones, rfl⟩ | ⟨only, ones, found, -, rfl, -⟩ | ⟨_, _, _, _, no, _⟩
    · rw [Nat.pow_zero] at ones
      rw [merkleHash, rangeHash, if_pos ones]
      rfl
    · rw [Nat.pow_zero] at ones found
      rw [merkleHash, rangeHash, if_neg ones, found]
      exact reflects.child_hash only
    · cases no
  | succ height ih =>
    rcases reflects.range_cases represents lengths agree with
      ⟨ones, rfl⟩ | ⟨only, ones, found, -, rfl, -⟩ |
      ⟨children, _, ones, found, -, rfl⟩
    · rw [merkleHash, rangeHash, if_pos ones]
      rfl
    · rw [merkleHash, rangeHash, if_neg ones, found]
      exact reflects.child_hash only
    · rw [merkleHash, rangeHash, if_neg ones, found]
      cases represents with
      | node _ _ _ below =>
        have half : ∀ bit, node.merkleHash hasher height (rangeStart (inside ++ [bit]))
            (bitmaps.rangeBitmaps (rangeStart inside) (2 ^ (height + 1))) =
          (children bit).hash hasher := by
          intro bit
          apply ih
          · have child := below bit
            rwa [append_assoc] at child
          · rw [length_append, length_singleton]
            omega
          · exact agree.deeper lengths [bit]
        have left := half false
        have right := half true
        rw [rangeStart_append (by omega), if_neg (by decide)] at left
        rw [rangeStart_append (by omega), if_pos rfl] at right
        change hasher.internal _ _ = hasher.internal _ _
        rw [left, right]

end Range

theorem bitmapsAgree_generate (node : InternalNode) (inside : List Bool) :
    node.BitmapsAgree inside node.generateBitmaps :=
  fun _ _ => ⟨rfl, rfl⟩

include reflects in
/-- The hash of an internal node is the hash of the binary tree. -/
theorem hash_eq (represents : Represents AccountKey.bits items (bits front) trie) :
    node.hash hasher = trie.hash hasher := by
  rw [← append_nil (bits front)] at represents
  exact @merkleHash_eq Value trie [] 4 hasher items front node subtries reflects represents
    node.generateBitmaps rfl (bitmapsAgree_generate node [])

/-- The halves of the range of a nibble, as bits. -/
theorem halfStart_eq (nibble : Nibble) (low : height ≤ 3) :
    ∃ bit, nibble.bits.drop (3 - height) = bit :: nibble.bits.drop (4 - height) ∧
      nibble.bits.take (4 - height) = nibble.bits.take (3 - height) ++ [bit] ∧
      getChildAndSiblingHalfStart nibble height = (rangeStart (nibble.bits.take (4 - height)),
        rangeStart (nibble.bits.take (3 - height) ++ [!bit])) := by
  have cases : height = 0 ∨ height = 1 ∨ height = 2 ∨ height = 3 := by omega
  rcases cases with rfl | rfl | rfl | rfl <;> revert nibble <;> decide

/-- The child and the siblings that follow the bits of a nibble in a subtree. -/
structure FollowsNibble (hasher : StateHasher Value) (node : InternalNode)
    (subtries : Nibble → BinaryTrie Value) (nodeKey : NodeKey) (nibble : Nibble)
    (result : Option NodeKey × List HashValue)
    (descent : List HashValue × BinaryTrie Value) : Prop where
  siblings : result.2 = descent.1
  child : (result.1 = none ∧ descent.2 = .empty) ∨
    ∃ only child, node.children only = some child ∧
      result.1 = some (nodeKey.genChildNodeKey child.version only) ∧
      descent.2 = subtries only ∧
      (only = nibble ∨ ∃ key value, subtries only = .leaf () key value)

variable {children : Bool → BinaryTrie Value}

section

include reflects

variable (nodeKey : NodeKey) (nibble : Nibble)

section

variable (low : height ≤ 3)
  (represents : Represents AccountKey.bits items (bits front ++ nibble.bits.take (3 - height))
    (.node () children))
include low represents

/-- One level of the loop, if the levels below it follow the nibble. -/
theorem childWithSiblingsAt_follows {below : Option NodeKey × List HashValue}
    (follows : ∀ deeper, height ≠ 0 →
      Represents AccountKey.bits items (bits front ++ nibble.bits.take (4 - height))
        (.node () deeper) →
      FollowsNibble hasher node subtries nodeKey nibble below
        ((CompressedTrie.node () deeper).descend hasher (nibble.bits.drop (4 - height)))) :
    FollowsNibble hasher node subtries nodeKey nibble
      (node.childWithSiblingsAt hasher nodeKey nibble height below)
      ((CompressedTrie.node () children).descend hasher (nibble.bits.drop (3 - height))) := by
  obtain ⟨bit, dropped, taken, starts⟩ := halfStart_eq nibble low
  have length : (nibble.bits.take (4 - height)).length = 4 - height := by
    rw [length_take, length_nibble_bits]
    omega
  have halves : ∀ side, Represents AccountKey.bits items
    (bits front ++ (nibble.bits.take (3 - height) ++ [side])) (children side) := by
    intro side
    cases represents with
    | node _ _ _ below =>
      have child := below side
      rwa [append_assoc] at child
  have sibling :
      node.merkleHash hasher height (rangeStart (nibble.bits.take (3 - height) ++ [!bit]))
          node.generateBitmaps =
        (children !bit).hash hasher := by
    refine merkleHash_eq reflects (halves !bit) ?_ (bitmapsAgree_generate node _)
    rw [length_append, length_take, length_nibble_bits, length_singleton]
    omega
  have childRepresents := halves bit
  rw [← taken] at childRepresents
  have lengths : height + (nibble.bits.take (4 - height)).length = 4 := by omega
  rw [dropped, descend_node, childWithSiblingsAt, starts]
  simp only [sibling]
  rcases reflects.range_cases childRepresents lengths (bitmapsAgree_generate node _) with
    ⟨ones, empty⟩ | ⟨only, ones, found, present, same, source⟩ |
    ⟨deeper, _, ones, found, positive, same⟩
  · rw [if_pos ones, empty, descend_empty]
    exact ⟨rfl, .inl ⟨rfl, rfl⟩⟩
  · have bottom (whole : only.bits = nibble.bits.take (4 - height)) : height = 0 := by
      have sizes := congrArg List.length whole
      rw [length, length_nibble_bits] at sizes
      omega
    -- the descent stops at the only child
    have stops :
        (subtries only).descend hasher (nibble.bits.drop (4 - height)) = ([], subtries only) := by
      rcases source with whole | ⟨key, value, leaf⟩
      · obtain rfl := bottom whole
        exact descend_nil _
      · rw [leaf, descend_leaf]
    rw [if_neg ones, found, same, stops]
    obtain ⟨child, lookup⟩ := Option.isSome_iff_exists.mp ((reflects.isSome_iff _).mpr present)
    refine ⟨rfl, .inr ⟨only, child, lookup, ?_, rfl, ?_⟩⟩
    · simp [InternalNode.child, lookup]
    · refine source.imp_left ?_
      intro whole
      obtain rfl := bottom whole
      exact nibble_bits_injective whole
  · rw [same] at childRepresents
    obtain ⟨siblings, child⟩ := follows deeper (by omega) childRepresents
    rw [if_neg ones, found, same]
    exact ⟨by rw [siblings], child⟩

theorem childWithSiblingsFrom_follows :
    FollowsNibble hasher node subtries nodeKey nibble
      (node.childWithSiblingsFrom hasher nodeKey nibble height)
      ((CompressedTrie.node () children).descend hasher (nibble.bits.drop (3 - height))) := by
  induction height generalizing children with
  | zero =>
    refine childWithSiblingsAt_follows reflects nodeKey nibble low represents ?_
    intro deeper positive
    exact (positive rfl).elim
  | succ height ih =>
    refine childWithSiblingsAt_follows reflects nodeKey nibble low represents ?_
    intro deeper _ deeperRepresents
    have heights : 4 - (height + 1) = 3 - height := by omega
    rw [heights] at deeperRepresents ⊢
    exact ih (by omega) deeperRepresents

end

/-- `getChildWithSiblings` follows the bits of a nibble in the binary tree. -/
theorem getChildWithSiblings_follows
    (represents : Represents AccountKey.bits items (bits front) (.node () children)) :
    FollowsNibble hasher node subtries nodeKey nibble
      (node.getChildWithSiblings hasher nodeKey nibble)
      ((CompressedTrie.node () children).descend hasher nibble.bits) := by
  refine childWithSiblingsFrom_follows reflects nodeKey nibble le_rfl ?_
  simpa using represents

end

end InternalNode

end Diem
