import Diem.LedgerInfo

namespace Diem

open Fallible

/-!
# The buffer of the execution pipeline

`Buffer` is a queue whose elements can be looked up by their hash
(`consensus/src/experimental/buffer.rs`).  It is a hash map whose entries are linked:
every entry holds the hash of the next one, and an index that orders the entries by
the time they were pushed.  The hash map is modelled by its lookup function.

Every `unwrap` of the source can panic here.  The loops over the links take as fuel
the number of elements that were ever pushed; the hash of an element is a parameter.
-/

/-- The text of a panic on a missing value. -/
def unwrapNone : String :=
  "called `Option::unwrap()` on a `None` value"

/-- An element with its place among the others. -/
structure LinkedItem (T : Type) where
  elem : Option T
  index : Nat
  next : Option HashValue

/-- A place in a buffer. -/
abbrev Cursor := Option HashValue

/-- A queue with lookup by hash. -/
structure Buffer (T : Type) where
  map : HashValue → Option (LinkedItem T)
  count : Nat
  head : Cursor
  tail : Cursor

namespace Buffer

variable {T : Type}

/-- The buffer without elements. -/
def new : Buffer T where
  map _ := none
  count := 0
  head := none
  tail := none

variable (buffer : Buffer T)

/-- The place of the first element. -/
def headCursor : Cursor := buffer.head

/-- Let the last entry point to a new one. -/
def linkTail (map : HashValue → Option (LinkedItem T)) (tail : Cursor) (tHash : HashValue) :
    Fallible (HashValue → Option (LinkedItem T)) :=
  match tail with
  | none => .ok map
  | some last => do
      let item ← expect (map last) unwrapNone
      return Function.update map last (some { item with next := some tHash })

/-- Add an element at the end, under its hash. -/
def pushBack (hash : T → Fallible HashValue) (buffer : Buffer T) (elem : T) :
    Fallible (Buffer T) := do
  let count ← expect (Word64.checkedAdd? buffer.count 1) unwrapNone
  let tHash ← hash elem
  let item := { elem := some elem, index := count, next := none }
  let map ← linkTail (Function.update buffer.map tHash (some item)) buffer.tail tHash
  return { map, count, head := buffer.head.or (some tHash), tail := some tHash }

/-- Remove the first element. -/
def popFront : Fallible (Option T × Buffer T) :=
  match buffer.head with
  | none => .ok (none, buffer)
  | some head => do
      let item ← expect (buffer.map head) unwrapNone
      let elem ← expect item.elem unwrapNone
      return (some elem,
        { buffer with
          map := Function.update buffer.map head none
          head := item.next
          tail := if item.next.isNone then none else buffer.tail })

variable (cursor : Cursor)

def entry : Fallible (HashValue × LinkedItem T) := do
  let key ← expect cursor unwrapNone
  let item ← expect (buffer.map key) unwrapNone
  return (key, item)

/-- The place after a given one. -/
def getNext : Fallible Cursor := do
  let found ← buffer.entry cursor
  return found.2.next

/-- The element at a place. -/
def get : Fallible T := do
  let found ← buffer.entry cursor
  expect found.2.elem unwrapNone

/-- Put an element at a place. -/
def set (newVal : T) : Fallible (Buffer T) := do
  let found ← buffer.entry cursor
  return { buffer with
    map := Function.update buffer.map found.1 (some { found.2 with elem := some newVal }) }

/-- Take the element out of a place, and leave the place. -/
def take : Fallible (T × Buffer T) := do
  let found ← buffer.entry cursor
  let elem ← expect found.2.elem unwrapNone
  return (elem,
    { buffer with
      map := Function.update buffer.map found.1 (some { found.2 with elem := none }) })

/-- Whether there is an entry at a place. -/
def exist : Bool :=
  match cursor with
  | none => false
  | some key => (buffer.map key).isSome

/-- The loop of `findElemFrom`. -/
def findLoop (buffer : Buffer T) (compare : T → Bool) : Nat → Cursor → Fallible Cursor
  | _, none => .ok none
  | 0, some _ => .error (.panic "the loop over the links does not end")
  | fuel + 1, some key => do
      let elem ← buffer.get (some key)
      if compare elem then
        return some key
      else do
        let next ← buffer.getNext (some key)
        findLoop buffer compare fuel next

/-- The first place, from a given one on, whose element passes a test. -/
def findElemFrom (compare : T → Bool) : Fallible Cursor :=
  if !buffer.exist cursor then
    .ok none
  else
    buffer.findLoop compare buffer.count cursor

/-- The place of a hash, unless it lies before the given place. -/
def findElemByKey (key : HashValue) : Fallible Cursor :=
  match cursor with
  | none => .ok none
  | some first => do
      let start ← expect (buffer.map first) unwrapNone
      match buffer.map key with
      | none => return none
      | some item => return if item.index ≥ start.index then some key else none

end Buffer

end Diem
