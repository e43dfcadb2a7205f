import Diem.StateRoot

namespace Diem

/-!
# Nodes of the Jellyfish Merkle tree

An internal node stands for four levels of a binary tree and has up to sixteen
children.  Its hash and the siblings it contributes to a proof are those of the
binary tree (`storage/jellyfish-merkle/src/node_type/mod.rs`).  A 16-bit map is given
by its bits.
-/

/-- The unique key of a node: where it is, and the version that created it. -/
structure NodeKey where
  version : Nat
  nibblePath : NibblePath
  deriving DecidableEq

namespace NodeKey

variable (key : NodeKey)

/-- The order of node keys: version, then length of the path, then the path. -/
def position : ℕ ×ₗ ℕ ×ₗ NibblePath :=
  toLex (key.version, toLex (key.nibblePath.length, key.nibblePath))

theorem position_injective : Function.Injective position := by
  rintro ⟨version, nibbles⟩ ⟨version', nibbles'⟩ same
  simp only [position, EmbeddingLike.apply_eq_iff_eq, Prod.mk.injEq] at same
  obtain ⟨rfl, -, rfl⟩ := same
  rfl

instance : LinearOrder NodeKey :=
  LinearOrder.lift' position position_injective

/-- The key as error texts show it. -/
def debug : String :=
  s!"NodeKey \x7b version: {key.version}, nibble_path: " ++
    String.ofList (key.nibblePath.map fun nibble => nibble.val.digitChar) ++
    " \x7d"

/-- The key of a root. -/
def newEmptyPath (version : Nat) : NodeKey where
  version := version
  nibblePath := []

/-- The key of a child. -/
def genChildNodeKey (version : Nat) (nibble : Nibble) : NodeKey where
  version := version
  nibblePath := key.nibblePath ++ [nibble]

end NodeKey

/-- What kind of node a child is, with its number of leaves if that is known. -/
inductive NodeType where
  | leaf
  | internalLegacy
  | internal (leafCount : Nat)
  deriving DecidableEq

/-- What an internal node knows about a child. -/
structure Child where
  hash : HashValue
  version : Nat
  nodeType : NodeType
  deriving DecidableEq

namespace Child

def isLeaf (child : Child) : Bool := child.nodeType == .leaf

/-- The number of leaves below the child. -/
def leafCount (child : Child) : Option Nat :=
  match child.nodeType with
  | .leaf => some 1
  | .internalLegacy => none
  | .internal leafCount => some leafCount

end Child

/-- The children of an internal node. -/
abbrev Children := Nibble → Option Child

namespace Children

def new : Children :=
  fun _ => none

def insert (children : Children) (nibble : Nibble) (child : Child) : Children :=
  Function.update children nibble (some child)

/-- The positions that have a child. -/
def existing (children : Children) : List Nibble :=
  (List.finRange 16).filter fun nibble => (children nibble).isSome

end Children

/-- A node that stands for four levels of the binary tree. -/
structure InternalNode where
  children : Children
  leafCount : Option Nat
  leafCountMigration : Bool
  deriving DecidableEq

/-- A 16-bit map, by its bits. -/
abbrev Bitmap := Nibble → Bool

/-- The positions of the ones of a bitmap, the least significant one first. -/
def Bitmap.ones (bitmap : Bitmap) : List Nibble :=
  (List.finRange 16).filter bitmap

/-- The bitmaps of the children that exist and of those that are leaves. -/
structure Bitmaps where
  existence : Bitmap
  leaf : Bitmap

namespace Bitmaps

/-- The part of the bitmaps in a range. -/
def rangeBitmaps (start width : Nat) (bitmaps : Bitmaps) : Bitmaps where
  existence nibble :=
    bitmaps.existence nibble && (decide (start ≤ nibble.val) && decide (nibble.val < start + width))
  leaf nibble :=
    bitmaps.leaf nibble && (decide (start ≤ nibble.val) && decide (nibble.val < start + width))

/--
The only child to look at, if the range is one child wide or holds a single leaf.
-/
def onlyChild (bitmaps : Bitmaps) (height : Nat) : Option Nibble :=
  match bitmaps.existence.ones with
  | [] => none
  | first :: rest =>
    if height = 0 ∨ (rest = [] ∧ bitmaps.leaf.ones ≠ []) then
      some first
    else
      none

end Bitmaps

/-- The first positions of the half with the nibble and of the other half. -/
def getChildAndSiblingHalfStart (nibble : Nibble) (height : Nat) : Nat × Nat :=
  let childHalfStart := (0xff <<< height) % 256 &&& nibble.val
  (childHalfStart, childHalfStart ^^^ (1 <<< height))

namespace InternalNode

variable (children : Children) (leafCountMigration : Bool) (node : InternalNode)

/-- The number of leaves below all children, if all numbers are known. -/
def sumLeafCount : Option Nat :=
  children.existing.foldlM
    (fun leafCount nibble => ((children nibble).bind Child.leafCount).map (leafCount + ·))
    0

/-- The node with some children. -/
def ofChildren : InternalNode where
  children := children
  leafCount := sumLeafCount children
  leafCountMigration := leafCountMigration

/-- Whether the only child is a leaf. -/
def onlyLeaf : Bool :=
  match children.existing with
  | [nibble] => ((children nibble).map Child.isLeaf).getD false
  | _ => false

/-- Build a node; a leaf is never an only child. -/
def newImpl : Fallible InternalNode := do
  Fallible.ensure (children.existing ≠ []) "Children must not be empty"
  Fallible.ensure (!onlyLeaf children) "If there's only one child, it must not be a leaf."
  return ofChildren children leafCountMigration

/-- Build a node from children that make sense. -/
def newMigration : Fallible InternalNode :=
  Fallible.unwrap (newImpl children leafCountMigration) "Input children are logical."

/-- What the parent records about the node. -/
def nodeType : NodeType :=
  match node.leafCount with
  | some leafCount => .internal leafCount
  | none => .internalLegacy

def child (nibble : Nibble) : Option Child :=
  node.children nibble

/-- Which children exist and which are leaves. -/
def generateBitmaps : Bitmaps where
  existence nibble := (node.children nibble).isSome
  leaf nibble := ((node.children nibble).map Child.isLeaf).getD false

section Hash

variable {Value : Type} (hasher : StateHasher Value)
  (node : InternalNode)

/--
The hash of a range of children, given the hash over its two halves.  The only child
of a range exists, since its position comes from the bitmap.
-/
def rangeHash (height : Nat) (range : Bitmaps) (halves : HashValue) : HashValue :=
  if range.existence.ones = [] then
    hasher.placeholder
  else
    match range.onlyChild height with
    | some nibble => ((node.child nibble).map Child.hash).getD hasher.placeholder
    | none => halves

/-- The hash of the children in a range of `2 ^ height` positions. -/
def merkleHash : (height start : Nat) → Bitmaps → HashValue
  | 0, start, bitmaps => node.rangeHash hasher 0 (bitmaps.rangeBitmaps start 1) hasher.placeholder
  | height + 1, start, bitmaps =>
    let range := bitmaps.rangeBitmaps start (2 ^ (height + 1))
    node.rangeHash hasher (height + 1) range
      (hasher.internal (merkleHash height start range)
        (merkleHash height (start + 2 ^ height) range))

/-- The hash of the subtree below the node. -/
def hash : HashValue :=
  node.merkleHash hasher 4 0 node.generateBitmaps

variable (nodeKey : NodeKey) (nibble : Nibble)

/--
One level: the hash of the sibling, and the child to go on with if there is only one
left to look at; otherwise what the levels below return.
-/
def childWithSiblingsAt (height : Nat)
    (below : Option NodeKey × List HashValue) : Option NodeKey × List HashValue :=
  let starts := getChildAndSiblingHalfStart nibble height
  let bitmaps := node.generateBitmaps
  let sibling := node.merkleHash hasher height starts.2 bitmaps
  let range := bitmaps.rangeBitmaps starts.1 (2 ^ height)
  if range.existence.ones = [] then
    (none, [sibling])
  else
    match range.onlyChild height with
    | some only =>
      ((node.child only).map fun child => nodeKey.genChildNodeKey child.version only, [sibling])
    | none => (below.1, sibling :: below.2)

/-- The levels from a height downwards; a range at height zero is one child wide. -/
def childWithSiblingsFrom :
    (height : Nat) → Option NodeKey × List HashValue
  | 0 => node.childWithSiblingsAt hasher nodeKey nibble 0 (none, [])
  | height + 1 =>
    node.childWithSiblingsAt hasher nodeKey nibble (height + 1) (childWithSiblingsFrom height)

/--
The child for a nibble with the siblings on the way to it.  If another child is the
only one there and is a leaf, it is returned instead.
-/
def getChildWithSiblings : Option NodeKey × List HashValue :=
  node.childWithSiblingsFrom hasher nodeKey nibble 3

end Hash

end InternalNode

/-- A leaf with the hash of its value. -/
structure LeafNode (Value : Type) where
  accountKey : AccountKey
  valueHash : HashValue
  value : Value
  deriving DecidableEq

namespace LeafNode

variable {Value : Type} (hasher : StateHasher Value)

def new (accountKey : AccountKey) (value : Value) : LeafNode Value where
  accountKey := accountKey
  valueHash := hasher.hashValue value
  value := value

def hash (node : LeafNode Value) : HashValue :=
  hasher.leaf node.accountKey node.valueHash

end LeafNode

/-- A node of the tree. -/
inductive Node (Value : Type) where
  | null
  | internal (node : InternalNode)
  | leaf (node : LeafNode Value)
  deriving DecidableEq

namespace Node

variable {Value : Type}

def isLeaf : Node Value → Bool
  | .leaf _ => true
  | _ => false

/-- What the parent records about the node; no child is a null node. -/
def nodeType : Node Value → Fallible NodeType
  | .null => .error (.panic "internal error: entered unreachable code")
  | .leaf _ => .ok .leaf
  | .internal node => .ok node.nodeType

def hash (hasher : StateHasher Value) : Node Value → HashValue
  | .null => hasher.placeholder
  | .internal node => node.hash hasher
  | .leaf node => node.hash hasher

end Node

end Diem
