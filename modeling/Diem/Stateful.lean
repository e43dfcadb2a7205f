import Mathlib.Tactic.Common

namespace Diem

/-!
# Computations with a state and errors

A computation takes a state and returns a result with a new state.  An error ends the
computation but keeps the changes made so far, as a method that returns early does.

`Satisfies` is the triple of such a computation, with one postcondition for its
values and one for its errors.  `Observes` is the case that most steps of a method
fall under: the step keeps an invariant whatever happens, and a value it returns
satisfies a fact.
-/

/-- A computation over a state that returns a value or an error. -/
def Stateful (σ ε α : Type) := σ → Except ε α × σ

namespace Stateful

variable {σ τ ε δ α β : Type}

/-- Return a value. -/
def ret (value : α) : Stateful σ ε α :=
  fun state => (.ok value, state)

variable (program : Stateful σ ε α)

/-- Run a computation and continue with its value. -/
def andThen (next : α → Stateful σ ε β) : Stateful σ ε β :=
  fun state =>
    match program state with
    | (.ok value, middle) => next value middle
    | (.error failure, final) => (.error failure, final)

instance : Monad (Stateful σ ε) where
  pure := ret
  bind := andThen

/-- Return an error. -/
def fail (failure : ε) : Stateful σ ε α :=
  fun state => (.error failure, state)

/-- Return a result that does not depend on the state. -/
def lift (result : Except ε α) : Stateful σ ε α :=
  fun state => (result, state)

/-- Read something off the state. -/
def reads (read : σ → α) : Stateful σ ε α :=
  fun state => (.ok (read state), state)

def modify (change : σ → σ) : Stateful σ ε Unit :=
  fun state => (.ok (), change state)

/-- Run a computation on a part of a larger state. -/
def zoom (part : τ → σ) (put : τ → σ → τ) (program : Stateful σ ε α) : Stateful τ ε α :=
  fun state => ((program (part state)).1, put state (program (part state)).2)

/-- Convert the errors of a computation. -/
def mapError (convert : ε → δ) (program : Stateful σ ε α) : Stateful σ δ α :=
  fun state => ((program state).1.mapError convert, (program state).2)

/-- Change the state when a computation fails. -/
def onError (cleanup : σ → σ) (program : Stateful σ ε α) : Stateful σ ε α :=
  fun state =>
    match program state with
    | (.ok value, final) => (.ok value, final)
    | (.error failure, final) => (.error failure, cleanup final)

variable {value : α} {next : α → Stateful σ ε β} {state middle : σ}
  {outcome : Except ε β × σ} {result : Except ε α}

variable {program} in
theorem bind_run (first : program state = (.ok value, middle))
    (rest : next value middle = outcome) : (program >>= next) state = outcome := by
  change andThen program next state = outcome
  rw [andThen, first]
  exact rest

/-- The computation returns a value from the given state. -/
def Returns (state : σ) : Prop :=
  ∃ value, (program state).1 = .ok value

variable {program} in
theorem Returns.bind (first : program state = (.ok value, middle))
    (rest : (next value).Returns middle) : (program >>= next).Returns state := by
  unfold Returns
  rw [bind_run first rfl]
  exact rest

theorem lift_run (returned : result = .ok value) (state : σ) :
    Stateful.lift result state = (.ok value, state) := by
  rw [returned]
  rfl

theorem lift_bind (returned : result = .ok value) (rest : next value state = outcome) :
    (.lift result >>= next) state = outcome :=
  bind_run (lift_run returned state) rest

/-- From `pre`, values end in `post` and errors in `err`. -/
def Satisfies (pre : σ → Prop) (post : α → σ → Prop) (err : ε → σ → Prop) : Prop :=
  ∀ state, pre state → (∀ value, (program state).1 = .ok value → post value (program state).2) ∧
    (∀ failure, (program state).1 = .error failure → err failure (program state).2)

/-- The invariant survives, and a returned value satisfies the fact. -/
def Observes (invariant : σ → Prop) (fact : α → Prop) : Prop :=
  program.Satisfies invariant (fun value state => fact value ∧ invariant state) (fun _ => invariant)

variable {program} {pre invariant : σ → Prop} {post : α → σ → Prop}
  {err : ε → σ → Prop} {goal : β → σ → Prop}

namespace Satisfies

theorem ret (holds : ∀ state, pre state → post value state) :
    (pure value : Stateful σ ε α).Satisfies pre post err := by
  intro state required
  refine ⟨?_, ?_⟩
  · intro returned same
    cases same
    exact holds state required
  · intro failure same
    cases same

/-- A result that does not depend on the state. -/
theorem lift (value : ∀ value, result = .ok value → ∀ state, pre state → post value state)
    (failure : ∀ failure, result = .error failure → ∀ state, pre state → err failure state) :
    (.lift result : Stateful σ ε α).Satisfies pre post err := by
  intro state required
  exact ⟨fun returned same => value returned same state required,
    fun failed same => failure failed same state required⟩

/-- A change of the state never fails. -/
theorem modify {change : σ → σ} (post : Unit → σ → Prop)
    (holds : ∀ state, pre state → post () (change state)) :
    (.modify change : Stateful σ ε Unit).Satisfies pre post err := by
  intro state required
  exact ⟨fun _ _ => holds state required, nofun⟩

theorem cases (valid : program.Satisfies pre post err) (required : pre state) :
    (∃ value final, program state = (.ok value, final) ∧ post value final) ∨
      ∃ failure final, program state = (.error failure, final) ∧ err failure final := by
  obtain ⟨values, failures⟩ := valid state required
  cases outcome : (program state).1 with
  | ok value => exact .inl ⟨value, _, Prod.ext outcome rfl, values value outcome⟩
  | error failure => exact .inr ⟨failure, _, Prod.ext outcome rfl, failures failure outcome⟩

variable {middle : α → σ → Prop}

/-- The first part's postcondition is the precondition of the second part. -/
theorem bind (first : program.Satisfies pre middle err)
    (second : ∀ value, (next value).Satisfies (middle value) goal err) :
    (program >>= next).Satisfies pre goal err := by
  intro state required
  simp only [Bind.bind, Stateful.andThen]
  rcases first.cases required with
    ⟨value, final, run, held⟩ | ⟨failure, final, run, held⟩ <;> rw [run]
  · exact second value final held
  · simp [held]

/-- What holds after values and after errors holds at the end. -/
theorem final (valid : program.Satisfies pre (fun _ => invariant) (fun _ => invariant))
    (required : pre state) : invariant (program state).2 := by
  rcases valid.cases required with ⟨_, _, run, held⟩ | ⟨_, _, run, held⟩ <;> rwa [run]

variable {err' : ε → σ → Prop} {post' : α → σ → Prop}

/-- Strengthen the precondition and weaken the postconditions. -/
theorem consequence {pre' : σ → Prop} (valid : program.Satisfies pre' post' err')
    (weakerPre : ∀ state, pre state → pre' state)
    (weakerPost : ∀ value state, post' value state → post value state)
    (weakerErr : ∀ failure state, err' failure state → err failure state) :
    program.Satisfies pre post err := by
  intro state required
  obtain ⟨values, failures⟩ := valid state (weakerPre state required)
  exact ⟨fun value same => weakerPost _ _ (values value same),
    fun failure same => weakerErr _ _ (failures failure same)⟩

theorem weaken (valid : program.Satisfies pre post' err')
    (weakerPost : ∀ value state, post' value state → post value state)
    (weakerErr : ∀ failure state, err' failure state → err failure state) :
    program.Satisfies pre post err :=
  valid.consequence (fun _ held => held) weakerPost weakerErr

/-- Two parts, where the errors of the first one are weakened. -/
theorem andThen (first : program.Satisfies pre middle err')
    (aborted : ∀ failure state, err' failure state → err failure state)
    (second : ∀ value, (next value).Satisfies (middle value) goal err) :
    (program >>= next).Satisfies pre goal err :=
  bind (first.weaken (fun _ _ held => held) aborted) second

/-- A computation on a part of the state. -/
theorem zoom {part : τ → σ} {put : τ → σ → τ} {outerPre : τ → Prop} {outerPost : α → τ → Prop}
    {outerErr : ε → τ → Prop}
    (valid : ∀ state, outerPre state → program.Satisfies (fun inner => inner = part state)
      (fun value inner => outerPost value (put state inner))
      (fun failure inner => outerErr failure (put state inner))) :
    (program.zoom part put).Satisfies outerPre outerPost outerErr := by
  intro state required
  exact valid state required (part state) rfl

/-- A computation with converted errors. -/
theorem mapError {convert : ε → δ} {err : δ → σ → Prop}
    (valid : program.Satisfies pre post fun failure => err (convert failure)) :
    (program.mapError convert).Satisfies pre post err := by
  intro state required
  rcases valid.cases required with ⟨_, _, run, held⟩ | ⟨_, _, run, held⟩ <;>
    simp [Stateful.mapError, Except.mapError, run, held]

/-- A computation that cleans up when it fails. -/
theorem onError {cleanup : σ → σ}
    (valid : program.Satisfies pre post fun failure state => err failure (cleanup state)) :
    (program.onError cleanup).Satisfies pre post err := by
  intro state required
  rcases valid.cases required with ⟨_, _, run, held⟩ | ⟨_, _, run, held⟩ <;>
    simp [Stateful.onError, run, held]

end Satisfies

namespace Observes

variable {fact : α → Prop}

/-- A step that observes a fact, followed by a computation that may use it. -/
theorem bind (first : program.Observes invariant fact)
    (aborted : ∀ failure state, invariant state → err failure state)
    (second : ∀ value, fact value → (next value).Satisfies invariant goal err) :
    (program >>= next).Satisfies invariant goal err := by
  apply Satisfies.andThen first aborted
  intro value state both
  exact second value both.1 state both.2

/-- The same for a computation whose errors keep the invariant. -/
theorem andThen (first : program.Observes invariant fact)
    (second : ∀ value, fact value → (next value).Satisfies invariant goal fun _ => invariant) :
    (program >>= next).Satisfies invariant goal fun _ => invariant :=
  first.bind (fun _ _ held => held) second

theorem ret (holds : fact value) : (pure value : Stateful σ ε α).Observes invariant fact :=
  Satisfies.ret fun _ held => ⟨holds, held⟩

theorem lift (result : Except ε α) :
    (.lift result : Stateful σ ε α).Observes invariant (fun value => result = .ok value) :=
  Satisfies.lift (fun _ same _ held => ⟨same, held⟩) (fun _ _ _ held => held)

theorem weaken {fact' : α → Prop} (observed : program.Observes invariant fact)
    (weaker : ∀ value, fact value → fact' value) : program.Observes invariant fact' :=
  Satisfies.weaken observed
    (fun value _ both => ⟨weaker value both.1, both.2⟩) (fun _ _ held => held)

theorem inspects (read : σ → α) :
    (.reads read : Stateful σ ε α).Observes invariant
      (fun value => ∃ state, invariant state ∧ read state = value) := by
  intro state held
  refine ⟨?_, ?_⟩
  · intro value same
    cases same
    exact ⟨⟨state, held, rfl⟩, held⟩
  · intro failure same
    cases same

/-- What is read off the state is what the invariant says it is. -/
theorem reads {read : σ → α} {found : α} (holds : ∀ state, invariant state → read state = found) :
    (.reads read : Stateful σ ε α).Observes invariant (fun value => value = found) :=
  (inspects read).weaken fun _ ⟨state, held, same⟩ => same.symm.trans (holds state held)

theorem readsState :
    (.reads fun state => state : Stateful σ ε σ).Observes invariant
      invariant :=
  (inspects fun state => state).weaken fun _ ⟨_, held, same⟩ => same ▸ held

theorem modify {change : σ → σ} (keeps : ∀ state, invariant state → invariant (change state)) :
    (.modify change : Stateful σ ε Unit).Observes invariant (fun _ => True) :=
  Satisfies.modify _ fun state held => ⟨trivial, keeps state held⟩

theorem fail {failure : ε} : (.fail failure : Stateful σ ε α).Observes invariant fact := by
  intro state held
  exact ⟨nofun, fun _ _ => held⟩

theorem keeps (observed : program.Observes invariant fun _ => True)
    (required : ∀ state, pre state → invariant state) :
    program.Satisfies pre (fun _ => invariant) (fun _ => invariant) :=
  Satisfies.consequence observed required (fun _ _ both => both.2) (fun _ _ held => held)

end Observes

/-- A result is looked at, and an error keeps the invariant. -/
theorem Satisfies.check
    (rest :
      ∀ value, result = .ok value → (next value).Satisfies invariant goal fun _ => invariant) :
    (.lift result >>= next).Satisfies invariant goal fun _ => invariant :=
  (Observes.lift _).andThen rest

end Stateful

end Diem
