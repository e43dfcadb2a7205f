import Diem.CompressedTrie
import Mathlib.Data.Option.Basic

namespace Diem

open CompressedTrie

/-!
# Updating compressed tries

The tree of a map with one tag at all of its nodes, and the tree after some changes
to the map: nodes on the way to a changed key get a new tag, everything else stays
as it was.
-/

namespace CompressedTrie

variable {Symbol Tag Other Key Value : Type}

/-- Change the tags of a tree. -/
def mapTag (change : Tag → Other) :
    CompressedTrie Symbol Tag Key Value → CompressedTrie Symbol Other Key Value
  | .empty => .empty
  | .leaf tag key value => .leaf (change tag) key value
  | .node tag children => .node (change tag) fun symbol => (children symbol).mapTag change

/-- The subtrees below the top of a tree. -/
def subtrees :
    CompressedTrie Symbol Tag Key Value → Symbol →
    CompressedTrie Symbol Tag Key Value
  | .node _ children => children
  | _ => fun _ => .empty

/-- The subtree at the end of a path. -/
def find :
    CompressedTrie Symbol Tag Key Value → List Symbol →
    CompressedTrie Symbol Tag Key Value
  | trie, [] => trie
  | .node _ children, symbol :: rest => (children symbol).find rest
  | _, _ :: _ => .empty

/-- Some values of a map changed. -/
def override (changes items : Key → Option Value) (key : Key) : Option Value :=
  (changes key).or (items key)

/-- The map with one key. -/
def single [DecidableEq Key] (key : Key) (value : Value) (query : Key) : Option Value :=
  if query = key then some value else none

section Facts

variable {path : Key → List Symbol} {height : Nat}
  {items changes other : Key → Option Value} {front : List Symbol}
  {trie : CompressedTrie Symbol Tag Key Value}

theorem Represents.mapTag (represents : Represents path items front trie) (change : Tag → Other) :
    Represents path items front (trie.mapTag change) := by
  induction represents with
  | empty none => exact .empty none
  | leaf starts stored only => exact .leaf starts stored only
  | node first second different _ ih => exact .node first second different ih

@[simp] theorem find_nil (trie : CompressedTrie Symbol Tag Key Value) : trie.find [] = trie := by
  cases trie <;> rfl

@[simp] theorem find_empty (symbols : List Symbol) :
    (.empty : CompressedTrie Symbol Tag Key Value).find symbols = .empty := by
  cases symbols <;> rfl

theorem find_cons (trie : CompressedTrie Symbol Tag Key Value) (symbol : Symbol)
    (rest : List Symbol) : trie.find (symbol :: rest) = (trie.subtrees symbol).find rest := by
  cases trie with
  | empty => simp [subtrees]
  | leaf => simp [subtrees, find]
  | node => rfl

/-- The tree of a map, with one tag at all nodes. -/
noncomputable def build
    (uniform : UniformPaths path height)
    (tag : Tag)
    (items : Key → Option Value)
    (front : List Symbol) :
    CompressedTrie Symbol Tag Key Value :=
  (exists_represents uniform items () front).choose.mapTag fun _ => tag

variable (uniform : UniformPaths path height) (tag : Tag)

theorem build_represents (items : Key → Option Value) (front : List Symbol) :
    Represents path items front (build uniform tag items front) :=
  (exists_represents uniform items () front).choose_spec.mapTag _

theorem build_eq {trie : CompressedTrie Symbol Unit Key Value}
    (represents : Represents path items front trie) :
    build uniform tag items front = trie.mapTag fun _ => tag := by
  have same := (exists_represents uniform items () front).choose_spec.unique represents
  rw [build, same]

theorem build_empty (none : ∀ key, ¬ Below path items front key) :
    build uniform tag items front = .empty :=
  build_eq uniform tag (.empty none)

variable {key : Key} {value : Value}

theorem build_leaf (starts : front <+: path key) (stored : items key = some value)
    (only : ∀ other, Below path items front other → other = key) :
    build uniform tag items front = .leaf tag key value := by
  have represents :
      Represents path items front (.leaf () key value : CompressedTrie Symbol Unit Key Value) :=
    .leaf starts stored only
  exact build_eq uniform tag represents

theorem build_node {first second : Key} (firstBelow : Below path items front first)
    (secondBelow : Below path items front second) (different : first ≠ second) :
    build uniform tag items front =
      .node tag fun symbol => build uniform tag items (front ++ [symbol]) := by
  have represents : Represents path items front
        (.node () fun symbol => (exists_represents uniform items () (front ++ [symbol])).choose) :=
    .node firstBelow secondBelow different fun symbol =>
      (exists_represents uniform items () (front ++ [symbol])).choose_spec
  exact build_eq uniform tag represents

theorem build_congr (same : ∀ key, front <+: path key → items key = other key) :
    build uniform tag items front = build uniform tag other front := by
  have represents := (exists_represents uniform items () front).choose_spec.congr same
  rw [build_eq uniform tag represents]
  rfl

theorem Below.override (below : Below path items front key) :
    Below path (override changes items) front key := by
  obtain ⟨starts, value, stored⟩ := below
  cases change : changes key with
  | none => exact ⟨starts, value, by rw [CompressedTrie.override, change, stored]; rfl⟩
  | some new => exact ⟨starts, new, by rw [CompressedTrie.override, change]; rfl⟩

theorem override_of_unchanged (unchanged : ∀ key, ¬ Below path changes front key)
    (starts : front <+: path key) : override changes items key = items key := by
  cases change : changes key with
  | none => rw [override, change, Option.none_or]
  | some value => exact (unchanged key ⟨starts, value, change⟩).elim

variable [DecidableEq Key]

open Classical in
/-- The tree after some changes. -/
noncomputable def updated
    (changes : Key → Option Value) :
    List Symbol → CompressedTrie Symbol Tag Key Value →
    CompressedTrie Symbol Tag Key Value
  | front, .empty => build uniform tag changes front
  | front, .leaf oldTag key value =>
    if ∃ changed, Below path changes front changed then
      build uniform tag (override changes (single key value)) front
    else
      .leaf oldTag key value
  | front, .node oldTag children =>
    if ∃ changed, Below path changes front changed then
      .node tag fun symbol => updated changes (front ++ [symbol]) (children symbol)
    else
      .node oldTag children

theorem eq_of_single {found : Value} {query : Key} (stored : single key value query = some found) :
    query = key := by
  by_contra different
  rw [single, if_neg different] at stored
  cases stored

/-- One key where there is nothing. -/
theorem updated_empty_single (starts : front <+: path key) :
    updated uniform tag (single key value) front .empty = .leaf tag key value := by
  refine build_leaf uniform tag starts (if_pos rfl) ?_
  rintro query ⟨-, found, stored⟩
  exact eq_of_single stored

/-- Without changes below it a tree stays as it is. -/
theorem updated_of_unchanged (unchanged : ∀ key, ¬ Below path changes front key)
    (trie : CompressedTrie Symbol Tag Key Value) :
    updated uniform tag changes front trie = trie := by
  have nothing : ¬ ∃ key, Below path changes front key := fun ⟨key, below⟩ => unchanged key below
  cases trie with
  | empty => exact build_empty uniform tag unchanged
  | leaf => rw [updated, if_neg nothing]
  | node => rw [updated, if_neg nothing]

theorem updated_leaf {changed : Key} {oldTag : Tag} (below : Below path changes front changed) :
    updated uniform tag changes front (.leaf oldTag key value) =
      build uniform tag (override changes (single key value)) front := by
  rw [updated, if_pos ⟨changed, below⟩]

theorem updated_node {changed : Key} {oldTag : Tag}
    {children : Symbol → CompressedTrie Symbol Tag Key Value}
    (below : Below path changes front changed) :
    updated uniform tag changes front (.node oldTag children) = .node tag fun symbol =>
      updated uniform tag changes (front ++ [symbol]) (children symbol) := by
  rw [updated, if_pos ⟨changed, below⟩]

omit [DecidableEq Key] in
theorem exists_below_congr (same : ∀ key, front <+: path key → changes key = other key) :
    (∃ key, Below path changes front key) ↔ ∃ key, Below path other front key :=
  exists_congr fun _ => ⟨.congr same, .congr fun key starts => (same key starts).symm⟩

open Classical in
/-- Only changes below the path of the tree matter. -/
theorem updated_congr {others : Key → Option Value}
    (same : ∀ key, front <+: path key → changes key = others key)
    (trie : CompressedTrie Symbol Tag Key Value) :
    updated uniform tag changes front trie = updated uniform tag others front trie := by
  induction trie generalizing front with
  | empty => exact build_congr uniform tag same
  | leaf oldTag leafKey value =>
    rw [updated, updated]
    refine if_congr (exists_below_congr same) ?_ rfl
    refine build_congr uniform tag fun key starts => ?_
    rw [override, override, same key starts]
  | node oldTag children ih =>
    rw [updated, updated]
    refine if_congr (exists_below_congr same) ?_ rfl
    congr 1
    funext symbol
    refine ih symbol fun key starts => ?_
    exact same key ((List.prefix_append _ _).trans starts)

/-- The tree after some changes is the tree of the changed map. -/
theorem Represents.updated (represents : Represents path items front trie)
    (changes : Key → Option Value) :
    Represents path (override changes items) front
      (updated uniform tag changes front trie) := by
  by_cases some : ∃ key, Below path changes front key
  · induction represents with
    | @empty front none =>
      refine (build_represents uniform tag changes front).congr ?_
      intro key starts
      cases change : changes key with
      | some value => rw [override, change, Option.some_or]
      | none =>
        cases stored : items key with
        | none => rw [override, change, stored]; rfl
        | some value => exact (none key ⟨starts, value, stored⟩).elim
    | @leaf front oldTag leafKey value starts stored only =>
      obtain ⟨key, below⟩ := some
      rw [updated_leaf uniform tag below]
      refine (build_represents uniform tag _ front).congr ?_
      intro query queryStarts
      rw [override, override]
      congr 1
      by_cases same : query = leafKey
      · rw [same, stored, single, if_pos rfl]
      · rw [single, if_neg same]
        cases found : items query with
        | none => rfl
        | some value => exact (same (only query ⟨queryStarts, value, found⟩)).elim
    | @node front oldTag children first second firstBelow secondBelow different deeper ih =>
        obtain ⟨key, below⟩ := some
        rw [updated_node uniform tag below]
        refine .node firstBelow.override secondBelow.override different ?_
        intro symbol
        by_cases here : ∃ key, Below path changes (front ++ [symbol]) key
        · exact ih symbol here
        · have nothing := not_exists.mp here
          rw [updated_of_unchanged uniform tag nothing]
          exact (deeper symbol).congr fun key starts => (override_of_unchanged nothing starts).symm
  · have nothing := not_exists.mp some
    rw [updated_of_unchanged uniform tag nothing]
    exact represents.congr fun key starts => (override_of_unchanged nothing starts).symm

end Facts

end CompressedTrie

end Diem
