import Mathlib.Data.PNat.Basic
import Mathlib.Data.List.Nodup

/-!
# Bounded message queues, one for each key

A channel keeps the messages of every key in a queue of their own and serves the keys that have
messages in turn.  The hash map is a partial function; queues and rotation are lists, front first.
-/

namespace Diem.Channel

open List

/-- What is dropped when a key's queue is full, and what is retrieved first. -/
inductive QueueStyle where
  | fifo
  | lifo
  | klast
  deriving DecidableEq

/-- Empty queues are removed every so many successful pops. -/
def popsPerGc : Nat := 50

/-- The queues, and the rotation of the keys that have messages. -/
structure PerKeyQueue (Key Message : Type) where
  queueStyle : QueueStyle
  perKeyQueue : Key → Option (List Message)
  roundRobinQueue : List Key
  maxQueueSize : ℕ+
  numPoppedSinceGc : Nat

/-- A call of the channel. -/
inductive Call (Key Message : Type) where
  | push (key : Key) (message : Message)
  | pop
  | clear

section

variable {Message : Type}

/-- The message a style retrieves from a key's queue, and what stays. -/
def QueueStyle.retrieve : QueueStyle → List Message → Option Message × List Message
  | .fifo, messages | .klast, messages => (messages.head?, messages.tail)
  | .lifo, messages => (messages.getLast?, messages.dropLast)

/-- The message dropped when one is added to a key's queue, and what the queue becomes. -/
def QueueStyle.store (style : QueueStyle) (capacity : ℕ+) (message : Message)
    (messages : List Message) : Option Message × List Message :=
  if capacity ≤ messages.length then
    match style with
    | .fifo => (some message, messages)
    | .lifo | .klast => (messages.head?, messages.tail ++ [message])
  else (none, messages ++ [message])

/-- A queue gives up at most one message and keeps the others in their order. -/
def GivesUp (before : List Message) (result : Option Message × List Message) : Prop :=
  before ~ result.1.toList ++ result.2 ∧ result.2 <+ before

theorem GivesUp.first (before : List Message) : GivesUp before (before.head?, before.tail) := by
  cases before <;> simp [GivesUp]

theorem QueueStyle.retrieve_givesUp (style : QueueStyle) (messages : List Message) :
    GivesUp messages (style.retrieve messages) := by
  cases style with
  | lifo =>
    rcases messages.eq_nil_or_concat with empty | ⟨rest, last, split⟩
    · simp [empty, retrieve, GivesUp]
    · simp [split, retrieve, GivesUp]
  | fifo => exact .first messages
  | klast => exact .first messages

theorem QueueStyle.store_givesUp (style : QueueStyle) (capacity : ℕ+) (message : Message)
    (messages : List Message) :
    GivesUp (messages ++ [message]) (style.store capacity message messages) := by
  have newest := perm_append_singleton message messages
  unfold store
  cases messages <;> cases style <;> split_ifs <;> simp_all [GivesUp]

/-- A queue that takes a message is not empty afterwards and stays within its capacity. -/
theorem QueueStyle.store_length (style : QueueStyle) {capacity : ℕ+} (message : Message)
    {messages : List Message} (bounded : messages.length ≤ capacity) :
    0 < (style.store capacity message messages).2.length ∧
      (style.store capacity message messages).2.length ≤ capacity := by
  have positive := capacity.pos
  cases style <;> simp only [store] <;> split_ifs <;> simp <;> omega

end

namespace PerKeyQueue

section

variable {Key Message : Type}

/-- The queue a channel starts with. -/
def new (queueStyle : QueueStyle) (maxQueueSize : ℕ+) : PerKeyQueue Key Message :=
  ⟨queueStyle, fun _ => none, [], maxQueueSize, 0⟩

variable (queue : PerKeyQueue Key Message) (key : Key)

/-- Garbage collect the empty queues. -/
def removeEmptyQueues : PerKeyQueue Key Message :=
  { queue with perKeyQueue := fun key => (queue.perKeyQueue key).filter (!·.isEmpty) }

/-- Forget all messages. -/
def clear : PerKeyQueue Key Message :=
  { queue with perKeyQueue := fun _ => none, roundRobinQueue := [] }

/-- The messages of a key that wait, oldest first. -/
def pending : List Message := (queue.perKeyQueue key).getD []

/-- A pop would serve this key. -/
abbrev Serves : Prop := queue.roundRobinQueue.head? = some key

end

variable {Key Message : Type} [DecidableEq Key] (queue : PerKeyQueue Key Message) (key : Key)

/-- The message taken from a key's queue, and whether the queue is empty afterwards. -/
def popFromKeyQueue : Option Message × Bool × PerKeyQueue Key Message :=
  match queue.perKeyQueue key with
  | some messages =>
    let (retval, rest) := queue.queueStyle.retrieve messages
    let perKeyQueue := Function.update queue.perKeyQueue key (some rest)
    (retval, rest.isEmpty, { queue with perKeyQueue })
  | none => (none, true, queue)

/-- Add a message; the result is the message dropped for it, if any. -/
def push (message : Message) : Option Message × PerKeyQueue Key Message :=
  let keyMessageQueue := (queue.perKeyQueue key).getD []
  let roundRobinQueue :=
    if keyMessageQueue.isEmpty then queue.roundRobinQueue ++ [key] else queue.roundRobinQueue
  let (dropped, kept) := queue.queueStyle.store queue.maxQueueSize message keyMessageQueue
  let perKeyQueue := Function.update queue.perKeyQueue key (some kept)
  (dropped, { queue with perKeyQueue, roundRobinQueue })

/-- The next message of the key at the front of the rotation. -/
def pop : Option Message × PerKeyQueue Key Message :=
  match queue.roundRobinQueue with
  | [] => (none, queue)
  | key :: rotation =>
    let (message, isQEmpty, queue) := popFromKeyQueue { queue with roundRobinQueue := rotation } key
    let queue :=
      if isQEmpty then queue
      else { queue with roundRobinQueue := queue.roundRobinQueue ++ [key] }
    if message.isSome then
      let numPoppedSinceGc := queue.numPoppedSinceGc + 1
      if popsPerGc ≤ numPoppedSinceGc then
        (message, removeEmptyQueues { queue with numPoppedSinceGc := 0 })
      else (message, { queue with numPoppedSinceGc })
    else (message, queue)

/-- One call. -/
def step : Call Key Message → PerKeyQueue Key Message
  | .push key message => (queue.push key message).2
  | .pop => queue.pop.2
  | .clear => queue.clear

/-- The calls one after the other. -/
def run (calls : List (Call Key Message)) : PerKeyQueue Key Message := calls.foldl step queue

/-- The message a call brings for a key. -/
def arriving : Call Key Message → List Message
  | .push target message => if target = key then [message] else []
  | .pop | .clear => []

/-- The messages of a key that a call takes out, as its result shows them. -/
def departing : Call Key Message → List Message
  | .push target message => if target = key then (queue.push key message).1.toList else []
  | .pop => if queue.Serves key then queue.pop.1.toList else []
  | .clear => queue.pending key

/-- All messages pushed for a key, in the order of the calls. -/
def arrivals (calls : List (Call Key Message)) : List Message := calls.flatMap (arriving key)

/-- All messages of a key that left during a run. -/
def departures (key : Key) : PerKeyQueue Key Message → List (Call Key Message) → List Message
  | _, [] => []
  | queue, call :: calls => queue.departing key call ++ departures key (queue.step call) calls

/-- A push changes the queue of its key only, and a key that gets its first message goes last. -/
theorem push_spec (message : Message) :
    let result := queue.queueStyle.store queue.maxQueueSize message (queue.pending key)
    (queue.push key message).1 = result.1 ∧
      (queue.push key message).2.roundRobinQueue =
        queue.roundRobinQueue ++ (if (queue.pending key).isEmpty then [key] else []) ∧
      ∀ other, (queue.push key message).2.pending other =
        if other = key then result.2 else queue.pending other := by
  refine ⟨rfl, ?_, fun other => ?_⟩
  · simp only [push, pending]
    split <;> simp_all
  · by_cases same : other = key <;> simp [push, pending, same]

/-- Removing empty queues does not change what waits. -/
theorem getD_filter (messages : Option (List Message)) :
    (messages.filter (!·.isEmpty)).getD [] = messages.getD [] := by
  rcases messages with _ | _ | ⟨first, rest⟩ <;> simp [Option.filter_some]

variable {queue key} {style : QueueStyle} {capacity : ℕ+}

/-- A pop serves the key at the front, which goes to the back while it has messages. -/
theorem pop_spec {rotation : List Key} (front : queue.roundRobinQueue = key :: rotation) :
    let result := queue.queueStyle.retrieve (queue.pending key)
    queue.pop.1 = result.1 ∧
      queue.pop.2.queueStyle = queue.queueStyle ∧
      queue.pop.2.maxQueueSize = queue.maxQueueSize ∧
      queue.pop.2.roundRobinQueue = rotation ++ (if result.2.isEmpty then [] else [key]) ∧
      ∀ other, queue.pop.2.pending other =
        if other = key then result.2 else queue.pending other := by
  have nothing : queue.queueStyle.retrieve ([] : List Message) = (none, []) := by
    cases queue.queueStyle <;> rfl
  cases found : queue.perKeyQueue key <;> simp only [pop, front, popFromKeyQueue, found]
  all_goals
    refine ⟨?_, ?_, ?_, ?_, fun other => ?_⟩ <;> split_ifs <;>
      simp_all [pending, removeEmptyQueues, getD_filter, Function.update_of_ne]

/-- The rotation holds exactly the keys with messages, each once, and no queue is too long. -/
structure Sound (style : QueueStyle) (capacity : ℕ+) (queue : PerKeyQueue Key Message) : Prop where
  queueStyle : queue.queueStyle = style
  maxQueueSize : queue.maxQueueSize = capacity
  nodup : queue.roundRobinQueue.Nodup
  mem_iff : ∀ key, key ∈ queue.roundRobinQueue ↔ queue.pending key ≠ []
  bounded : ∀ key, (queue.pending key).length ≤ capacity

section

variable (sound : Sound style capacity queue)
include sound

theorem Sound.push (message : Message) : Sound style capacity (queue.push key message).2 := by
  obtain ⟨-, rotation, remaining⟩ := queue.push_spec key message
  have admitted := style.store_length message (sound.bounded key)
  rw [sound.queueStyle, sound.maxQueueSize] at remaining
  refine ⟨sound.queueStyle, sound.maxQueueSize, ?_, fun other => ?_, fun other => ?_⟩
  · rw [rotation]
    split_ifs with empty
    · have absent : key ∉ queue.roundRobinQueue := by simpa [sound.mem_iff] using empty
      simpa using sound.nodup.concat absent
    · simpa using sound.nodup
  · have waiting := sound.mem_iff other
    have nonempty := ne_nil_of_length_pos admitted.1
    rw [rotation, remaining]
    by_cases same : other = key <;> split_ifs <;> simp_all
  · rw [remaining]
    split_ifs
    · exact admitted.2
    · exact sound.bounded other

theorem Sound.pop : Sound style capacity queue.pop.2 := by
  cases front : queue.roundRobinQueue with
  | nil => simpa [PerKeyQueue.pop, front] using sound
  | cons key rotation =>
    obtain ⟨-, sameStyle, sameSize, rotated, remaining⟩ := pop_spec front
    have distinct := sound.nodup
    rw [front, nodup_cons] at distinct
    refine ⟨sameStyle.trans sound.queueStyle, sameSize.trans sound.maxQueueSize, ?_,
      fun other => ?_, fun other => ?_⟩
    · have last := distinct.2.concat distinct.1
      rw [rotated]
      split_ifs <;> simp_all
    · have waiting := sound.mem_iff other
      rw [rotated, remaining]
      by_cases same : other = key <;> split_ifs <;> simp_all
    · rw [remaining]
      split_ifs
      · exact (queue.queueStyle.retrieve_givesUp _).2.length_le.trans (sound.bounded key)
      · exact sound.bounded other

theorem Sound.run (calls : List (Call Key Message)) : Sound style capacity (queue.run calls) := by
  induction calls generalizing queue with
  | nil => exact sound
  | cons call calls ih =>
    refine ih ?_
    cases call with
    | push key message => exact sound.push message
    | pop => exact sound.pop
    | clear =>
      refine ⟨sound.queueStyle, sound.maxQueueSize, ?_, ?_, ?_⟩ <;> simp [step, clear, pending]

end

variable (queue key) in
/-- One call moves messages between waiting and gone, and keeps the order of those that wait. -/
theorem step_pending (call : Call Key Message) :
    queue.pending key ++ arriving key call ~
        queue.departing key call ++ (queue.step call).pending key ∧
      (queue.step call).pending key <+ queue.pending key ++ arriving key call := by
  cases call with
  | push target message =>
    obtain ⟨dropped, -, remaining⟩ := queue.push_spec target message
    by_cases same : target = key
    · subst target
      simpa [GivesUp, arriving, departing, step, dropped, remaining] using
        queue.queueStyle.store_givesUp queue.maxQueueSize message (queue.pending key)
    · simp [arriving, departing, step, remaining, same, Ne.symm same]
  | pop =>
    cases front : queue.roundRobinQueue with
    | nil => simp [arriving, departing, step, pop, front]
    | cons served rotation =>
      obtain ⟨result, -, -, -, remaining⟩ := pop_spec front
      by_cases same : served = key
      · subst served
        simpa [GivesUp, arriving, departing, step, Serves, front, result, remaining] using
          queue.queueStyle.retrieve_givesUp (queue.pending key)
      · simp [arriving, departing, step, Serves, front, remaining, same, Ne.symm same]
  | clear => simp [arriving, departing, step, clear, pending]

variable (queue key) in
theorem run_pending (calls : List (Call Key Message)) :
    queue.pending key ++ arrivals key calls ~
        departures key queue calls ++ (queue.run calls).pending key ∧
      (queue.run calls).pending key <+ queue.pending key ++ arrivals key calls := by
  induction calls generalizing queue with
  | nil => simp [arrivals, departures, run]
  | cons call calls ih =>
    obtain ⟨moved, ordered⟩ := queue.step_pending key call
    obtain ⟨laterMoved, laterOrdered⟩ := ih (queue.step call)
    have now := moved.append_right (arrivals key calls)
    have later := laterMoved.append_left (queue.departing key call)
    constructor
    · simpa [arrivals, departures, run] using now.trans (by simpa [run] using later)
    · simpa [arrivals, run] using laterOrdered.trans (ordered.append_right _)

/-- `other` stands in the rotation with no `key` before it. -/
def Ahead (other key : Key) (queue : PerKeyQueue Key Message) : Prop :=
  ∃ front back, queue.roundRobinQueue = front ++ other :: back ∧ key ∉ front

variable {other : Key}

/-- A key stays ahead of another until it is served, unless its messages are cleared. -/
theorem ahead_step (ahead : Ahead other key queue) {call : Call Key Message}
    (waits : (queue.step call).pending other ≠ []) (unserved : call = .pop → ¬queue.Serves other) :
    Ahead other key (queue.step call) := by
  obtain ⟨front, back, rotation, absent⟩ := ahead
  cases call with
  | push target message =>
    obtain ⟨-, rotated, -⟩ := queue.push_spec target message
    exact ⟨front, _, by simpa [step, rotation] using rotated, absent⟩
  | pop =>
    cases front with
    | nil => simp [Serves, rotation] at unserved
    | cons served front =>
      obtain ⟨-, -, -, rotated, -⟩ := pop_spec rotation
      exact ⟨front, _, by simpa [step] using rotated, fun member => absent (.tail _ member)⟩
  | clear => simp [step, clear, pending] at waits

/-- Before a key behind it is served, the key ahead is. -/
theorem served_first (distinct : other ≠ key) {calls : List (Call Key Message)}
    (ahead : Ahead other key queue)
    (waits : ∀ early, early <+: calls → (queue.run early).pending other ≠ [])
    (last : (queue.run calls).Serves key) :
    ∃ early late, calls = early ++ .pop :: late ∧ (queue.run early).Serves other := by
  induction calls generalizing queue with
  | nil => obtain ⟨_ | ⟨first, front⟩, back, rotation, absent⟩ := ahead <;> simp_all [run, Serves]
  | cons call calls ih =>
    by_cases served : call = .pop ∧ queue.Serves other
    · exact ⟨[], calls, by simp [served.1], served.2⟩
    · have stays := ahead_step ahead (waits [call] (by simp)) (by simpa using served)
      obtain ⟨early, late, split, serves⟩ := ih stays
        (fun early isPrefix => waits (call :: early) (by simpa using isPrefix)) last
      exact ⟨call :: early, late, by simp [split], serves⟩

/-- The key that was served goes behind every key that waits. -/
theorem Sound.ahead_of_served (sound : Sound style capacity queue) (distinct : other ≠ key)
    (served : queue.Serves key) (waits : queue.pop.2.pending other ≠ []) :
    Ahead other key queue.pop.2 := by
  obtain ⟨rotation, front⟩ := head?_eq_some_iff.mp served
  obtain ⟨-, -, -, rotated, remaining⟩ := pop_spec front
  rw [remaining, if_neg distinct, ← sound.mem_iff, front] at waits
  have behind := (mem_cons.mp waits).resolve_left distinct
  obtain ⟨before, after, split⟩ := append_of_mem behind
  have once := sound.nodup
  rw [front, split] at once
  exact ⟨before, _, by simpa [split] using rotated, by simp_all⟩

/-- The queue is fair, and it drops only what its style says. -/
theorem fair_and_lossless (style : QueueStyle) (capacity : ℕ+) (calls : List (Call Key Message)) :
    let queue := run (new style capacity) calls
    queue.roundRobinQueue.Nodup ∧
      (∀ key, key ∈ queue.roundRobinQueue ↔ queue.pending key ≠ []) ∧
      (∀ key, (queue.pending key).length ≤ capacity) ∧
      (∀ key, queue.pending key <+ arrivals key calls) ∧
      (∀ key, arrivals key calls ~
        departures key (new style capacity) calls ++ queue.pending key) ∧
      (∀ key message, (queue.push key message).1 =
        if (queue.pending key).length < capacity then none
        else if style = .fifo then some message
        else (queue.pending key).head?) ∧
      (∀ key, queue.Serves key → queue.pop.1 =
        if style = .lifo then (queue.pending key).getLast? else (queue.pending key).head?) ∧
      (queue.pop.1 = none → ∀ key, queue.pending key = []) ∧
      ∀ key other between, other ≠ key → queue.Serves key →
        (queue.pop.2.run between).Serves key →
        (∀ early, early <+: between → (queue.pop.2.run early).pending other ≠ []) →
        ∃ early late, between = early ++ .pop :: late ∧ (queue.pop.2.run early).Serves other := by
  intro queue
  have sound : Sound style capacity queue :=
    .run (by constructor <;> simp [new, pending]) calls
  have moved := run_pending (new style capacity : PerKeyQueue Key Message)
  refine ⟨sound.nodup, sound.mem_iff, sound.bounded, fun key => (moved key calls).2,
    fun key => (moved key calls).1, fun key message => ?_, fun key served => ?_,
    fun nothing key => ?_, fun key other between distinct first last waits => ?_⟩
  · rw [(queue.push_spec key message).1, sound.queueStyle, sound.maxQueueSize]
    cases style <;> simp only [QueueStyle.store] <;> split_ifs <;> first | rfl | omega | simp_all
  · obtain ⟨rotation, front⟩ := head?_eq_some_iff.mp served
    rw [(pop_spec front).1, sound.queueStyle]
    cases style <;> simp [QueueStyle.retrieve]
  · cases front : queue.roundRobinQueue with
    | nil => simpa [front] using sound.mem_iff key
    | cons served rotation =>
      have waiting := (sound.mem_iff served).mp (by simp [front])
      rw [(pop_spec front).1] at nothing
      cases same : queue.queueStyle <;> simp_all [QueueStyle.retrieve]
  · have ahead := sound.ahead_of_served distinct first (waits [] (by simp))
    exact served_first distinct ahead waits last

end PerKeyQueue

end Diem.Channel
