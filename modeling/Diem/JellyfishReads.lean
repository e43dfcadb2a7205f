import Diem.JellyfishNode
import Diem.SparseMerkleProof

namespace Diem

/-!
# Reading the Jellyfish Merkle tree

Looking up a key at a version with its proof, and the root hash
(`storage/jellyfish-merkle/src/lib.rs`).
-/

/-- The storage that holds nodes: `get_node_option`. -/
abbrev TreeReader (Value : Type) :=
  NodeKey → Option (Node Value)

namespace TreeReader

variable {Value : Type} (hasher : StateHasher Value)
  (reader : TreeReader Value)

/-- Read a node, or fail. -/
def getNode (nodeKey : NodeKey) : Fallible (Node Value) :=
  Fallible.okOr (reader nodeKey) ("Missing node at " ++ nodeKey.debug ++ ".")

/-- The node with a key on the way down from a root. -/
def getNextNode (version nibbleDepth : Nat) (nodeKey : NodeKey) : Fallible (Node Value) :=
  if nibbleDepth = 0 then
    Fallible.context (reader.getNode nodeKey)
      s!"Missing state root node at version {version}, probably pruned."
  else
    reader.getNode nodeKey

/-- The loop of `getWithProof`; siblings are collected from the top. -/
def getWithProofFrom (reader : TreeReader Value) (key : AccountKey) (version : Nat) :
    (loops nibbleDepth : Nat) → NodeKey → NibblePath → List HashValue →
    Fallible (Option Value × SparseMerkleProof)
  | 0, _, _, _, _ => .error (.error "Jellyfish Merkle tree has cyclic graph inside.")
  | loops + 1, nibbleDepth, nextNodeKey, nibbles, siblings => do
      let nextNode ← reader.getNextNode version nibbleDepth nextNodeKey
      match nextNode, nibbles with
      | .internal _, [] => .error (.error "ran out of nibbles")
      | .internal internalNode, queriedChildIndex :: nibbles =>
        let childAndSiblings :=
          internalNode.getChildWithSiblings hasher nextNodeKey queriedChildIndex
        let siblings := siblings ++ childAndSiblings.2
        match childAndSiblings.1 with
        | some nodeKey =>
          reader.getWithProofFrom key version loops (nibbleDepth + 1) nodeKey nibbles siblings
        | none => .ok (none, ⟨none, siblings.reverse⟩)
      | .leaf leafNode, _ =>
        .ok (if leafNode.accountKey = key then some leafNode.value else none,
          ⟨some ⟨leafNode.accountKey, leafNode.valueHash⟩, siblings.reverse⟩)
      | .null, _ =>
        if nibbleDepth = 0 then
          .ok (none, ⟨none, []⟩)
        else
          .error (.error ("Non-root null node exists with node key " ++ nextNodeKey.debug))

/-- The value of a key in a version, with a proof. -/
def getWithProof (key : AccountKey) (version : Nat) : Fallible (Option Value × SparseMerkleProof) :=
  reader.getWithProofFrom hasher key version (rootNibbleHeight + 1) 0
    (.newEmptyPath version) key.nibbles []

/-- The root of a version, or fail. -/
def getRootNode (version : Nat) : Fallible (Node Value) :=
  Fallible.okOr (reader (.newEmptyPath version))
    s!"Root node not found for version {version}."

/-- The hash of a version's root. -/
def getRootHash (version : Nat) : Fallible HashValue := do
  let root ← reader.getRootNode version
  return root.hash hasher

end TreeReader

end Diem
