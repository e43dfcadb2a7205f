import Diem.JellyfishProofs
import Diem.TrieUpdate

namespace Diem

open Function (update update_of_ne update_self)

/-!
# The nodes of a versioned trie

The tree at a version is a compressed trie over nibbles whose nodes carry the version
that created them.  Its nodes are determined by the trie, and so is the map from node
keys to nodes.  Changing a subtree changes the map below one path.
-/

open CompressedTrie

/-- A tree whose nodes carry the version that created them. -/
abbrev JellyfishTrie (Value : Type) :=
  CompressedTrie Nibble Nat AccountKey Value

/-- What a storage has at each key. -/
abbrev NodeMap (Value : Type) := NodeKey → Option (Node Value)

variable {Value : Type}

/-- What a parent records about a node. -/
def Node.asChild (hasher : StateHasher Value) (version : Nat) :
    Node Value → Option Child
  | .null => none
  | .leaf leafNode => some ⟨leafNode.hash hasher, version, .leaf⟩
  | .internal internalNode => some ⟨internalNode.hash hasher, version, internalNode.nodeType⟩

namespace JellyfishTrie

variable (hasher : StateHasher Value) (counts : Bool)

/-- The version that created the top node. -/
def rootVersion : JellyfishTrie Value → Nat
  | .empty => 0
  | .leaf version _ _ => version
  | .node version _ => version

/-- The top node of a trie. -/
def toNode : JellyfishTrie Value → Node Value
  | .empty => .null
  | .leaf _ key value => .leaf (.new hasher key value)
  | .node _ children =>
    .internal
      (.ofChildren
        (fun nibble => (toNode (children nibble)).asChild hasher (rootVersion (children nibble)))
        counts)

/-- The children that the top node of some subtrees records. -/
def childrenOf (subtries : Nibble → JellyfishTrie Value) : Children :=
  fun nibble =>
    (toNode hasher counts (subtries nibble)).asChild hasher (rootVersion (subtries nibble))

variable (trie : JellyfishTrie Value) (version : Nat)

/-- The top node, if it was created at the version. -/
def entry : Option (Node Value) :=
  match trie with
  | .empty => none
  | trie =>
    if rootVersion trie = version then
      some (toNode hasher counts trie)
    else
      none

/-- The node map with the nodes below a path replaced by those of a tree. -/
def graft (nodes : NodeMap Value) (front : NibblePath)
    (trie : JellyfishTrie Value) : NodeMap Value :=
  fun key =>
    if front <+: key.nibblePath then
      entry hasher counts (trie.find (key.nibblePath.drop front.length)) key.version
    else
      nodes key

/-- The same without the top node. -/
def opened (nodes : NodeMap Value) (front : NibblePath)
    (subtries : Nibble → JellyfishTrie Value) : NodeMap Value :=
  fun key =>
    if front <+: key.nibblePath then
      match key.nibblePath.drop front.length with
      | [] => none
      | nibble :: rest => entry hasher counts ((subtries nibble).find rest) key.version
    else
      nodes key

section Facts

variable {hasher counts}

@[simp] theorem toNode_node (children : Nibble → JellyfishTrie Value) :
    toNode hasher counts (.node version children) =
      .internal (.ofChildren (childrenOf hasher counts children) counts) :=
  rfl

@[simp] theorem entry_empty : entry hasher counts (.empty : JellyfishTrie Value) version = none :=
  rfl

variable {trie : JellyfishTrie Value} {subtries : Nibble → JellyfishTrie Value}

theorem entry_of_ne_empty (present : trie ≠ .empty) (version : Nat) :
    entry hasher counts trie version =
      if rootVersion trie = version then
        some (toNode hasher counts trie)
      else
        none := by
  cases trie with
  | empty => exact (present rfl).elim
  | leaf => rfl
  | node => rfl

variable {nibble : Nibble}

variable (hasher counts) in
theorem childrenOf_eq_some (present : subtries nibble ≠ .empty) :
    ∃ nodeType, (toNode hasher counts (subtries nibble)).nodeType = .ok nodeType ∧
      childrenOf hasher counts subtries nibble =
        some ⟨(toNode hasher counts (subtries nibble)).hash hasher,
          rootVersion (subtries nibble), nodeType⟩ := by
  rw [childrenOf]
  cases shape : subtries nibble with
  | empty => exact (present shape).elim
  | leaf version key value => exact ⟨.leaf, rfl, rfl⟩
  | node version children => exact ⟨_, rfl, rfl⟩

theorem childrenOf_eq_none (absent : subtries nibble = .empty) :
    childrenOf hasher counts subtries nibble = none := by
  rw [childrenOf, absent]
  rfl

theorem childrenOf_update (subtries : Nibble → JellyfishTrie Value) (nibble : Nibble)
    (trie : JellyfishTrie Value) :
    childrenOf hasher counts (update subtries nibble trie) =
      update (childrenOf hasher counts subtries) nibble
        ((toNode hasher counts trie).asChild hasher (rootVersion trie)) := by
  funext other
  by_cases same : other = nibble
  · subst same
    simp [childrenOf]
  · simp [childrenOf, same]

theorem childrenOf_empty :
    childrenOf hasher counts (fun _ => (.empty : JellyfishTrie Value)) = Children.new :=
  rfl

/-- Recording a new child. -/
theorem childrenOf_insert {nodeType : NodeType}
    (type : (toNode hasher counts trie).nodeType = .ok nodeType) :
    (childrenOf hasher counts subtries).insert nibble
        ⟨(toNode hasher counts trie).hash hasher, rootVersion trie, nodeType⟩ =
      childrenOf hasher counts (update subtries nibble trie) := by
  rw [childrenOf_update, Children.insert]
  cases trie with
  | empty => cases type
  | leaf => cases type; rfl
  | node => cases type; rfl

section Graft

variable {nodes : NodeMap Value} {front : NibblePath}

theorem graft_append (rest : NibblePath) :
    graft hasher counts nodes front trie ⟨version, front ++ rest⟩ =
      entry hasher counts (trie.find rest) version := by
  simp [graft]

theorem graft_self :
    graft hasher counts nodes front trie ⟨version, front⟩ =
      entry hasher counts trie version := by
  simp [graft]

theorem opened_append (subtries : Nibble → JellyfishTrie Value) (version : Nat) (nibble : Nibble)
    (rest : NibblePath) :
    opened hasher counts nodes front subtries ⟨version, front ++ nibble :: rest⟩ =
      entry hasher counts ((subtries nibble).find rest) version := by
  simp [opened]

theorem opened_self (subtries : Nibble → JellyfishTrie Value) (version : Nat) :
    opened hasher counts nodes front subtries ⟨version, front⟩ = none := by
  simp [opened]

variable {key : NodeKey}

theorem graft_outside (outside : ¬ front <+: key.nibblePath) :
    graft hasher counts nodes front trie key = nodes key :=
  if_neg outside

theorem opened_outside (subtries : Nibble → JellyfishTrie Value)
    (outside : ¬ front <+: key.nibblePath) :
    opened hasher counts nodes front subtries key = nodes key :=
  if_neg outside

/-- Two node maps are equal if they agree outside a path, at it and below it. -/
theorem nodeMap_ext {first second : NodeMap Value} (front : NibblePath)
    (outside : ∀ key : NodeKey, ¬ front <+: key.nibblePath → first key = second key)
    (top : ∀ version, first ⟨version, front⟩ = second ⟨version, front⟩)
    (below : ∀ version nibble rest,
      first ⟨version, front ++ nibble :: rest⟩ = second ⟨version, front ++ nibble :: rest⟩) :
    first = second := by
  funext key
  by_cases starts : front <+: key.nibblePath
  · obtain ⟨version, nibbles⟩ := key
    obtain ⟨rest, rfl⟩ := starts
    cases rest with
    | nil => simpa using top version
    | cons nibble rest => exact below version nibble rest
  · exact outside key starts

theorem ne_front {version version' : Nat} {nibble : Nibble} {rest : NibblePath} :
    (⟨version, front ++ nibble :: rest⟩ : NodeKey) ≠ ⟨version', front⟩ := by
  intro same
  have paths := (NodeKey.mk.inj same).2
  simp at paths

theorem ne_of_outside {version : Nat} (outside : ¬ front <+: key.nibblePath) :
    key ≠ ⟨version, front⟩ := by
  rintro rfl
  exact outside List.prefix_rfl

/-- Removing the top node of a grafted tree. -/
theorem graft_erase (present : trie ≠ .empty) :
    update (graft hasher counts nodes front trie) ⟨rootVersion trie, front⟩ none =
      opened hasher counts nodes front trie.subtrees := by
  refine nodeMap_ext front ?_ ?_ ?_
  · intro key outside
    rw [update_of_ne (ne_of_outside outside), graft_outside outside, opened_outside _ outside]
  · intro version
    rw [opened_self]
    by_cases same : rootVersion trie = version
    · rw [← same, update_self]
    · have different : (⟨version, front⟩ : NodeKey) ≠ ⟨rootVersion trie, front⟩ := by
        simpa using Ne.symm same
      rw [update_of_ne different, graft_self, entry_of_ne_empty present, if_neg same]
  · intro version nibble rest
    rw [update_of_ne ne_front, graft_append, opened_append, find_cons]

theorem graft_top (present : trie ≠ .empty) :
    graft hasher counts nodes front trie ⟨rootVersion trie, front⟩ =
      some (toNode hasher counts trie) := by
  rw [graft_self, entry_of_ne_empty present, if_pos rfl]

theorem opened_put (present : trie ≠ .empty) :
    update (opened hasher counts nodes front trie.subtrees)
        ⟨rootVersion trie, front⟩ (some (toNode hasher counts trie)) =
      graft hasher counts nodes front trie := by
  rw [← graft_erase present, Function.update_idem, ← graft_top present, Function.update_eq_self]

theorem graft_empty :
    graft hasher counts nodes front .empty =
      opened hasher counts nodes front fun _ => .empty := by
  refine nodeMap_ext front ?_ ?_ ?_
  · intro key outside
    rw [graft_outside outside, opened_outside _ outside]
  · intro other
    rw [graft_self, opened_self, entry_empty]
  · intro other nibble rest
    rw [graft_append, opened_append, find_empty, find_empty]

/-- Adding a leaf where there is nothing. -/
theorem graft_empty_put (key : AccountKey) (value : Value) :
    update (graft hasher counts nodes front .empty)
        ⟨version, front⟩ (some (.leaf (.new hasher key value))) =
      graft hasher counts nodes front (.leaf version key value) := by
  have present : (.leaf version key value : JellyfishTrie Value) ≠ .empty := by simp
  rw [graft_empty]
  exact opened_put present

/-- Grafting a child of an opened tree. -/
theorem opened_graft (subtries : Nibble → JellyfishTrie Value) (nibble : Nibble)
    (trie : JellyfishTrie Value) :
    graft hasher counts (opened hasher counts nodes front subtries) (front ++ [nibble]) trie =
      opened hasher counts nodes front (update subtries nibble trie) := by
  refine nodeMap_ext front ?_ ?_ ?_
  · intro key outside
    have further : ¬ front ++ [nibble] <+: key.nibblePath := by
      intro starts
      exact outside ((List.prefix_append _ _).trans starts)
    rw [graft_outside further, opened_outside _ outside, opened_outside _ outside]
  · intro version
    have further : ¬ front ++ [nibble] <+: front := by
      intro starts
      have lengths := starts.length_le
      simp at lengths
    rw [graft_outside further, opened_self, opened_self]
  · intro version other rest
    rw [opened_append]
    by_cases same : other = nibble
    · subst same
      rw [show front ++ other :: rest = front ++ [other] ++ rest by simp, graft_append, update_self]
    · have further : ¬ front ++ [nibble] <+: front ++ other :: rest := by
        rw [List.prefix_append_right_inj]
        intro starts
        exact same (List.cons_prefix_cons.mp starts).1.symm
      rw [graft_outside further, opened_append, update_of_ne same]

theorem opened_eq_graft (nibble : Nibble) (same : subtries nibble = trie) :
    opened hasher counts nodes front subtries =
      graft hasher counts (opened hasher counts nodes front subtries)
        (front ++ [nibble]) trie := by
  rw [opened_graft, ← same, Function.update_eq_self]

end Graft

end Facts

end JellyfishTrie

end Diem
