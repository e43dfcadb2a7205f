import Mathlib.Data.List.Infix

namespace Diem

/-!
# Compressed tries

A map whose keys are paths of one length, kept as a tree: a subtree without keys is
empty, a subtree with a single key is a leaf, and any other subtree has a child for
every symbol.  The map determines the tree, up to the tags its nodes carry.
-/

/-- A tree with a child for every symbol, and a tag at every node. -/
inductive CompressedTrie (Symbol Tag Key Value : Type) where
  | empty
  | leaf (tag : Tag) (key : Key) (value : Value)
  | node (tag : Tag) (children : Symbol → CompressedTrie Symbol Tag Key Value)

namespace CompressedTrie

variable {Symbol Tag Key Value : Type}

/-- All keys have different paths of the given length. -/
structure UniformPaths (path : Key → List Symbol) (height : Nat) : Prop where
  injective : Function.Injective path
  length : ∀ key, (path key).length = height

/-- The map stores a key whose path starts with the given one. -/
def Below (path : Key → List Symbol) (items : Key → Option Value) (front : List Symbol)
    (key : Key) : Prop :=
  front <+: path key ∧ ∃ value, items key = some value

/-- The tree of the keys below a path. -/
inductive Represents (path : Key → List Symbol) (items : Key → Option Value) :
    List Symbol → CompressedTrie Symbol Tag Key Value → Prop where
  | empty
      {front : List Symbol} :
      (∀ key, ¬ Below path items front key) →
      Represents path items front .empty
  | leaf
      {front : List Symbol}
      {tag : Tag}
      {key : Key}
      {value : Value} :
      front <+: path key →
      items key = some value →
      (∀ other, Below path items front other → other = key) →
      Represents path items front (.leaf tag key value)
  | node
      {front : List Symbol}
      {tag : Tag}
      {children : Symbol → CompressedTrie Symbol Tag Key Value}
      {first second : Key} :
      Below path items front first →
      Below path items front second →
      first ≠ second →
      (∀ symbol, Represents path items (front ++ [symbol]) (children symbol)) →
      Represents path items front (.node tag children)

section Facts

variable {path : Key → List Symbol} {items other : Key → Option Value}
  {front : List Symbol} {key : Key}

theorem Below.of_append {symbols : List Symbol} (below : Below path items (front ++ symbols) key) :
    Below path items front key :=
  ⟨(List.prefix_append front symbols).trans below.1, below.2⟩

theorem Below.congr (same : ∀ key, front <+: path key → items key = other key)
    (below : Below path items front key) : Below path other front key := by
  obtain ⟨starts, value, stored⟩ := below
  exact ⟨starts, value, by rw [← same key starts, stored]⟩

/-- The tree below a path only depends on the keys below it. -/
theorem Represents.congr {trie : CompressedTrie Symbol Tag Key Value}
    (same : ∀ key, front <+: path key → items key = other key)
    (represents : Represents path items front trie) : Represents path other front trie := by
  induction represents with
  | empty none =>
    refine .empty fun key below => none key ?_
    exact below.congr fun key starts => (same key starts).symm
  | leaf starts stored only =>
    refine .leaf starts (by rw [← same _ starts, stored]) ?_
    intro found below
    refine only found (below.congr ?_)
    exact fun key starts => (same key starts).symm
  | node first second different _ ih =>
    refine .node (first.congr same) (second.congr same) different ?_
    intro symbol
    refine ih symbol fun key starts => ?_
    exact same key ((List.prefix_append _ _).trans starts)

/-- A tree without tags is determined by the map. -/
theorem Represents.unique {first second : CompressedTrie Symbol Unit Key Value}
    (firstRepresents : Represents path items front first)
    (secondRepresents : Represents path items front second) : first = second := by
  induction firstRepresents generalizing second with
  | empty none =>
    cases secondRepresents with
    | empty => rfl
    | leaf starts stored _ => exact (none _ ⟨starts, _, stored⟩).elim
    | node below _ _ _ => exact (none _ below).elim
  | leaf starts stored only =>
    cases secondRepresents with
    | empty none => exact (none _ ⟨starts, _, stored⟩).elim
    | leaf starts' stored' _ =>
      obtain rfl := only _ ⟨starts', _, stored'⟩
      obtain rfl := Option.some.inj (stored.symm.trans stored')
      rfl
    | node below below' different _ =>
      exact (different ((only _ below).trans (only _ below').symm)).elim
  | node below below' different _ ih =>
    cases secondRepresents with
    | empty none => exact (none _ below).elim
    | leaf _ _ only => exact (different ((only _ below).trans (only _ below').symm)).elim
    | node _ _ _ children =>
      congr 1
      funext symbol
      exact ih symbol (children symbol)

theorem Represents.items_eq_none
    (represents : Represents path items front (.empty : CompressedTrie Symbol Tag Key Value))
    (starts : front <+: path key) : items key = none := by
  obtain ⟨none⟩ := represents
  cases stored : items key with
  | none => rfl
  | some value => exact (none key ⟨starts, value, stored⟩).elim

theorem Represents.items_leaf {tag : Tag} {leafKey : Key} {value : Value}
    (represents :
      Represents path items front (.leaf tag leafKey value : CompressedTrie Symbol Tag Key Value))
    (starts : front <+: path key)
    (different : key ≠ leafKey) :
    items key = none := by
  cases represents with
  | leaf _ _ only =>
    cases stored : items key with
    | none => rfl
    | some value => exact (different (only key ⟨starts, value, stored⟩)).elim

variable {height : Nat}

section

variable (uniform : UniformPaths path height)
include uniform

/-- Two keys below one path differ after it. -/
theorem UniformPaths.front_length_lt {first second : Key} (firstStarts : front <+: path first)
    (secondStarts : front <+: path second) (different : first ≠ second) :
    front.length < height := by
  have bounded := firstStarts.length_le
  rw [uniform.length] at bounded
  rcases Nat.lt_or_eq_of_le bounded with shorter | full
  · exact shorter
  · have firstWhole : front = path first := firstStarts.eq_of_length (by rw [full, uniform.length])
    have secondWhole : front = path second :=
      secondStarts.eq_of_length (by rw [full, uniform.length])
    exact (different (uniform.injective (firstWhole.symm.trans secondWhole))).elim

/-- There is no room for a node below a path of full length. -/
theorem UniformPaths.not_node {tag : Tag}
    {children : Symbol → CompressedTrie Symbol Tag Key Value} :
    ¬ Represents path items (path key) (.node tag children) := by
  intro represents
  cases represents with
  | node first second different _ =>
    have short := uniform.front_length_lt first.1 second.1 different
    rw [uniform.length] at short
    exact (Nat.lt_irrefl _ short).elim

/-- Every map has a tree, with any tag at its nodes. -/
theorem exists_represents (items : Key → Option Value) (tag : Tag) (front : List Symbol) :
    ∃ trie : CompressedTrie Symbol Tag Key Value, Represents path items front trie := by
  -- induction on the length that is left below the path
  generalize remaining : height - front.length = left
  induction left generalizing front with
  | zero =>
    by_cases some : ∃ key, Below path items front key
    · obtain ⟨key, starts, value, stored⟩ := some
      refine ⟨.leaf tag key value, .leaf starts stored ?_⟩
      intro other below
      by_contra different
      have short := uniform.front_length_lt starts below.1 (.symm different)
      omega
    · exact ⟨.empty, .empty fun key below => some ⟨key, below⟩⟩
  | succ left ih =>
    by_cases some : ∃ key, Below path items front key
    · obtain ⟨key, below⟩ := some
      by_cases more : ∃ other, Below path items front other ∧ other ≠ key
      · obtain ⟨other, otherBelow, different⟩ := more
        have step : ∀ symbol, ∃ trie : CompressedTrie Symbol Tag Key Value,
          Represents path items (front ++ [symbol]) trie := by
          intro symbol
          apply ih
          rw [List.length_append, List.length_singleton]
          omega
        choose children represents using step
        exact ⟨.node tag children, .node otherBelow below different represents⟩
      · obtain ⟨starts, value, stored⟩ := below
        refine ⟨.leaf tag key value, .leaf starts stored ?_⟩
        intro other otherBelow
        by_contra different
        exact more ⟨other, otherBelow, different⟩
    · exact ⟨.empty, .empty fun key below => some ⟨key, below⟩⟩

end

end Facts

end CompressedTrie

end Diem
