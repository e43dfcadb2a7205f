import Mathlib.Data.List.Nodup
import Mathlib.Data.List.Perm.Subperm
import Mathlib.Data.Nat.Basic
import Mathlib.Order.Basic

namespace Diem

open List

/-!
# Walking a tree with a stack

`walk` lists the nodes of a tree from a root on, except those below one node that it
does not enter.  It takes a node off a stack, puts the children of the node on the stack
and goes on.  A ranking that grows from parents to children makes the walk visit no node
twice, and so makes it end.
-/

namespace TreeWalk

variable {Node : Type} [DecidableEq Node]

/-- The walk with the nodes still to visit and those visited; `none` if it is cut off. -/
def walk (children : Node → List Node) (stop : Node) :
    Nat → List Node → List Node → Option (List Node)
  | _, [], visited => some visited
  | 0, _ :: _, _ => none
  | fuel + 1, node :: stack, visited =>
    walk children stop fuel (((children node).filter fun child => child ≠ stop).reverse ++ stack)
      (visited ++ [node])

/-- Children know their parent, and ranks grow from parents to children. -/
structure Ranked (children : Node → List Node) (parent : Node → Node) (rank : Node → Nat)
    (nodes : List Node) : Prop where
  ofParent : ∀ node child, child ∈ children node → parent child = node
  grows : ∀ node child, child ∈ children node → rank node < rank child
  noRepeats : ∀ node, (children node).Nodup
  inside : ∀ node child, child ∈ children node → child ∈ nodes

/-- What is known of a list of visited nodes, with `waiting` ones to come. -/
structure Visits (children : Node → List Node) (parent : Node → Node) (root stop : Node)
    (visited waiting : List Node) : Prop where
  hasRoot : root ∈ visited ++ waiting
  notStop : stop ∉ visited ++ waiting
  closed : ∀ node ∈ visited, ∀ child ∈ children node, child = stop ∨ child ∈ visited ++ waiting
  linked : ∀ node ∈ visited ++ waiting,
    node = root ∨ (parent node ∈ visited ∧ node ∈ children (parent node))
  parentsFirst : ∀ front, front <+: visited → ∀ node ∈ front, node = root ∨ parent node ∈ front

variable {children : Node → List Node} {parent : Node → Node} {rank : Node → Nat}
  {nodes : List Node} {root stop : Node} {visited stack : List Node} {node : Node}

omit [DecidableEq Node] in
theorem Visits.start (proper : root ≠ stop) : Visits children parent root stop [] [root] where
  hasRoot := mem_singleton_self root
  notStop := by
    intro member
    exact proper (mem_singleton.mp member).symm
  closed := nofun
  linked := fun node member => .inl (mem_singleton.mp member)
  parentsFirst := by
    intro front isFront node member
    rw [prefix_nil.mp isFront] at member
    cases member

section

variable (ranked : Ranked children parent rank nodes)
include ranked

theorem Visits.step (visits : Visits children parent root stop visited (node :: stack)) :
    Visits children parent root stop (visited ++ [node])
      (((children node).filter fun child => child ≠ stop).reverse ++ stack) where
  hasRoot := by
    have member := visits.hasRoot
    simp only [mem_append, mem_cons] at member ⊢
    tauto
  notStop := by
    have absent := visits.notStop
    simp only [mem_append, mem_cons, mem_reverse, mem_filter] at absent ⊢
    simp only [ne_eq, not_true_eq_false, decide_false, Bool.false_eq_true, and_false, not_mem_nil]
    tauto
  closed := by
    intro earlier isEarlier child isChild
    rcases mem_append.mp isEarlier with old | isNode
    · rcases visits.closed earlier old child isChild with same | member
      · exact .inl same
      · right
        simp only [mem_append, mem_cons] at member ⊢
        tauto
    · rw [mem_singleton.mp isNode] at isChild
      by_cases same : child = stop
      · exact .inl same
      · right
        simp only [mem_append, mem_reverse, mem_filter]
        simp [isChild, same]
  linked := by
    intro other member
    have cases : other ∈ visited ++ node :: stack ∨ other ∈ children node := by
      simp only [mem_append, mem_reverse, mem_filter, mem_cons] at member ⊢
      tauto
    rcases cases with old | isChild
    · rcases visits.linked other old with isRoot | ⟨parentVisited, isChild⟩
      · exact .inl isRoot
      · exact .inr ⟨mem_append_left _ parentVisited, isChild⟩
    · have isParent := ranked.ofParent node other isChild
      rw [isParent]
      exact .inr ⟨mem_append_right _ mem_cons_self, isChild⟩
  parentsFirst := by
    intro front isFront other member
    rcases prefix_concat_iff.mp isFront with rfl | before
    · rcases mem_append.mp member with old | isNode
      · rcases visits.parentsFirst visited prefix_rfl other old with
          isRoot | parentFirst
        · exact .inl isRoot
        · exact .inr (mem_append_left _ parentFirst)
      · rw [mem_singleton.mp isNode]
        rcases visits.linked node (by simp) with isRoot | ⟨parentVisited, -⟩
        · exact .inl isRoot
        · exact .inr (mem_append_left _ parentVisited)
    · exact visits.parentsFirst front before other member

omit [DecidableEq Node] in
/-- Visited and waiting nodes rank above the root. -/
theorem Visits.rank_le (visits : Visits children parent root stop visited stack) (other : Node)
    (member : other ∈ visited ++ stack) : rank root ≤ rank other := by
  induction isRank : rank other using Nat.strongRecOn generalizing other with
  | ind bound ih =>
    rcases visits.linked other member with rfl | ⟨parentVisited, isChild⟩
    · exact isRank.le
    · have grows := ranked.grows _ other isChild
      have below := ih (rank (parent other)) (isRank ▸ grows)
        (parent other) (mem_append_left _ parentVisited) rfl
      exact below.trans (isRank ▸ grows.le)

omit [DecidableEq Node] in
/-- The children of the next node were not seen before. -/
theorem Visits.children_fresh (visits : Visits children parent root stop visited (node :: stack))
    (nodup : (visited ++ node :: stack).Nodup) {child : Node} (isChild : child ∈ children node) :
    child ∉ visited ++ node :: stack := by
  intro member
  have nodeUnseen : node ∉ visited := by
    rw [nodup_append] at nodup
    exact fun seen => nodup.2.2 node seen node mem_cons_self rfl
  rcases visits.linked child member with rfl | ⟨parentVisited, -⟩
  · have above := visits.rank_le ranked node (by simp)
    exact absurd (ranked.grows node child isChild) (not_lt.mpr above)
  · rw [ranked.ofParent node child isChild] at parentVisited
    exact nodeUnseen parentVisited

/-- The walk visits no node twice. -/
theorem Visits.nodup_step (visits : Visits children parent root stop visited (node :: stack))
    (nodup : (visited ++ node :: stack).Nodup) :
    ((visited ++ [node]) ++
      (((children node).filter fun child => child ≠ stop).reverse ++ stack)).Nodup := by
  have rearranged : ((visited ++ [node]) ++
        (((children node).filter fun child => child ≠ stop).reverse ++ stack)).Perm
        (((children node).filter fun child => child ≠ stop) ++ (visited ++ node :: stack)) := by
    generalize (children node).filter (fun child => child ≠ stop) = fresh
    calc
      (visited ++ [node]) ++ (fresh.reverse ++ stack)
          = (visited ++ [node]) ++ fresh.reverse ++ stack := by
        rw [append_assoc (visited ++ [node])]
      _ ~ fresh.reverse ++ (visited ++ [node]) ++ stack := perm_append_comm.append_right stack
      _ ~ fresh ++ (visited ++ [node]) ++ stack :=
        ((reverse_perm fresh).append_right _).append_right stack
      _ = fresh ++ (visited ++ node :: stack) := by
        simp
  rw [rearranged.nodup_iff, nodup_append]
  refine ⟨(ranked.noRepeats node).filter _, nodup, ?_⟩
  rintro child isChild other isOther rfl
  exact visits.children_fresh ranked nodup (mem_of_mem_filter isChild) isOther

/--
The walk ends and has visited what it should.  The invariant is that visited and waiting
nodes are pairwise distinct nodes, so there are never more of them than nodes.
-/
theorem walk_from (fuel : Nat) (visits : Visits children parent root stop visited stack)
    (nodup : (visited ++ stack).Nodup) (inside : ∀ node ∈ visited ++ stack, node ∈ nodes)
    (enough : nodes.length ≤ visited.length + fuel) :
    ∃ final, walk children stop fuel stack visited = some final ∧ final.Nodup ∧
      (∀ node ∈ final, node ∈ nodes) ∧
      Visits children parent root stop final [] := by
  induction fuel generalizing visited stack with
  | zero =>
    have short := (subperm_of_subset nodup inside).length_le
    cases stack with
    | nil =>
      rw [append_nil] at nodup inside
      exact ⟨visited, rfl, nodup, inside, visits⟩
    | cons node stack =>
      rw [length_append, length_cons] at short
      omega
  | succ fuel ih =>
    cases stack with
    | nil =>
      rw [append_nil] at nodup inside
      exact ⟨visited, rfl, nodup, inside, visits⟩
    | cons node stack =>
      refine ih (visits.step ranked) (visits.nodup_step ranked nodup) ?_ ?_
      · intro other member
        simp only [mem_append, mem_reverse, mem_filter, mem_singleton] at member
        rcases member with (old | rfl) | ⟨isChild, -⟩ | waiting
        · exact inside other (mem_append_left _ old)
        · exact inside other (by simp)
        · exact ranked.inside node other isChild
        · exact inside other (by simp [waiting])
      · rw [length_append, length_singleton]
        omega

theorem walk_root (proper : root ≠ stop) (isNode : root ∈ nodes) :
    ∃ visited, walk children stop nodes.length [root] [] = some visited ∧ visited.Nodup ∧
      (∀ node ∈ visited, node ∈ nodes) ∧
      Visits children parent root stop visited [] := by
  refine walk_from ranked nodes.length (.start proper)
    (nodup_singleton root) ?_ (Nat.zero_add _).ge
  intro node member
  rw [mem_singleton.mp member]
  exact isNode

end

end TreeWalk

end Diem
