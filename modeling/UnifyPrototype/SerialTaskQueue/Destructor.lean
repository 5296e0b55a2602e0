import UnifyPrototype.SerialTaskQueue.Threads

/-!
# The destructor of `SerialTaskQueue`

One thread destroys the queue `q` and nobody calls `push`, `pause` or `resume` on it from then on. The
runner loops go on. The destructor decides from its reads of `m_tasks`, `m_taskChosen` and
`m_pauseCount` whether to wait; then it pushes an empty task of its own group that hands the deferred
task `last` to this group, and waits for the group.
-/

namespace UnifyPrototype.SerialTaskQueue

open UnifyPrototype.Utils

variable {Q α : Type}

/-! ## Program points -/

/-- The next operation of the destructor. -/
inductive DestructorPoint
  | readEmpty
  | readChosen (isEmpty : Bool)
  | readPauseCount (isTaskChosen : Bool)
  | push
  | wait
  | finished
deriving DecidableEq, Repr

/-- The task `last`: not made, `defer`red, handed to `g.run`, or done. -/
inductive Last
  | unmade
  | deferred
  | running
  | done
deriving DecidableEq, Repr

/-- The program, the thread in the destructor with where it is, and `last`. The action of a task is
`none` for the one that the destructor pushes. -/
structure Teardown (Q α : Type) where
  program : State Q (Option α) := {}
  destructor : Option (ℕ × DestructorPoint) := none
  last : Last := .unmade

/-- The group of the destructor is number 0, so that those of the others start at 1. -/
def Op.outside : Op α → Op (Option α)
  | .push g a => .push (g + 1) (some a)
  | .pause => .pause
  | .resume => .resume

/-- A move of the program without the destructor. -/
def Label.outside : Label Q α → Label Q (Option α)
  | .fork => .fork
  | .call i q op => .call i q op.outside
  | .advance i => .advance i
  | .finish i threw => .finish i threw

/-- The group whose functor the operation is in. -/
def Point.group : Point α → Option ℕ
  | .pick (.runner g) _ | .spawn (.runner g) _ | .loop g _ | .execute g _ | .finishedTask g => some g
  | .waiting t => some t.group
  | _ => none

/-! ## Steps -/

/-- The moves: those of the program; thread `i` starts to destroy the queue; the destructor makes its
next step; `last` runs. -/
inductive TeardownLabel (Q α : Type)
  | program (b : Label Q α)
  | destroy (i : ℕ)
  | advance
  | runLast
deriving DecidableEq, Repr

/-- Thread `j` is executing the task that the destructor has pushed. -/
def Teardown.executesLast (s : Teardown Q α) (j : ℕ) : Bool :=
  match (s.program.threads[j]?).bind Thread.job with
  | some (_, .execute _ t) => t.action.isNone
  | _ => false

/-- Thread `j` is in the destructor. -/
def Teardown.destroys (s : Teardown Q α) (j : ℕ) : Bool :=
  match s.destructor with
  | some (i, p) => decide (i = j ∧ p ≠ .finished)
  | none => false

variable [DecidableEq Q]

/-- A thread in the destructor does nothing else. The task that the destructor has pushed calls
`g.run` and returns. Nobody calls a member function of `q` after the destructor has started. -/
def Teardown.permits (q : Q) (s : Teardown Q α) : Label Q α → Bool
  | .fork | .advance _ => true
  | .call j q' _ =>
    !s.destroys j && !s.executesLast j && (s.destructor.isNone || decide (q' ≠ q))
  | .finish j threw => !s.destroys j && !(s.executesLast j && threw)

/-- The task of the destructor has called `g.run(std::move(last))` when it ends. -/
def Teardown.lastAfter (s : Teardown Q α) : Label Q α → Last
  | .finish j _ => if s.executesLast j then .running else s.last
  | _ => s.last

/-- One operation of the destructor. `g.wait()` returns when `last` is done and no functor of the
group is left; those are all functors of `q`, since nobody else has the group. -/
def Teardown.advance (q : Q) (s : Teardown Q α) : Option (Teardown Q α) :=
  let m := s.program.queue q
  match s.destructor with
  | none => none
  | some (i, .readEmpty) =>
    some { s with destructor := some (i, .readChosen m.tasks.isEmpty) }
  | some (i, .readChosen isEmpty) =>
    some { s with destructor := some (i,
      if isEmpty then (if m.taskChosen then .push else .finished)
      else .readPauseCount m.taskChosen) }
  | some (i, .readPauseCount isTaskChosen) =>
    some { s with destructor := some (i,
      if m.pauseCount = 0 ∨ isTaskChosen = true then .push else .finished) }
  | some (i, .push) =>
    (step s.program (.call i q (.push 0 none))).map fun program =>
      { program := program, destructor := some (i, .wait), last := .deferred }
  | some (i, .wait) =>
    if (s.program.threads[i]?).bind Thread.call = none ∧ s.last = .done ∧
        ∀ pt ∈ s.program.points q, pt.group ≠ some 0 then
      some { s with destructor := some (i, .finished) }
    else none
  | some (_, .finished) => none

/-- One step. The destructor starts when no thread is inside `push`, `pause` or `resume`. -/
def Teardown.step (q : Q) (s : Teardown Q α) : TeardownLabel Q α → Option (Teardown Q α)
  | .program b =>
    if s.permits q b then
      (SerialTaskQueue.step s.program b.outside).map fun program =>
        { s with program := program, last := s.lastAfter b }
    else none
  | .destroy i =>
    match s.program.threads[i]? with
    | some th =>
      if s.destructor = none ∧ th.call = none ∧ th.inUserCode = true ∧ pointAt q th.job = [] ∧
          ∀ pt ∈ s.program.points q, pt.inCall = false then
        some { s with destructor := some (i, .readEmpty) }
      else none
    | none => none
  | .advance => s.advance q
  | .runLast => if s.last = .running then some { s with last := .done } else none

/-! ## What a step does to the program -/

variable {s s' : Teardown Q α} {q : Q} {a : TeardownLabel Q α}

/-- What the step is, with what the destructor does taken apart. -/
inductive Teardown.Steps (q : Q) (s : Teardown Q α) : TeardownLabel Q α → Teardown Q α → Prop
  | program (b : Label Q α) {p : State Q (Option α)} (hpermits : s.permits q b = true)
      (hp : SerialTaskQueue.step s.program b.outside = some p) :
      Steps q s (.program b) { s with program := p, last := s.lastAfter b }
  | destroy (i : ℕ) (hnone : s.destructor = none)
      (hcalls : ∀ pt ∈ s.program.points q, pt.inCall = false) :
      Steps q s (.destroy i) { s with destructor := some (i, .readEmpty) }
  | readEmpty (i : ℕ) (hpoint : s.destructor = some (i, .readEmpty)) :
      Steps q s .advance
        { s with destructor := some (i, .readChosen (s.program.queue q).tasks.isEmpty) }
  | readChosen (i : ℕ) (isEmpty : Bool) (hpoint : s.destructor = some (i, .readChosen isEmpty)) :
      Steps q s .advance { s with destructor := some (i,
        if isEmpty then (if (s.program.queue q).taskChosen then .push else .finished)
        else .readPauseCount (s.program.queue q).taskChosen) }
  | readPauseCount (i : ℕ) (isTaskChosen : Bool)
      (hpoint : s.destructor = some (i, .readPauseCount isTaskChosen)) :
      Steps q s .advance { s with destructor := some (i,
        if (s.program.queue q).pauseCount = 0 ∨ isTaskChosen = true then .push else .finished) }
  | push (i : ℕ) {p : State Q (Option α)} (hpoint : s.destructor = some (i, .push))
      (hp : SerialTaskQueue.step s.program (.call i q (.push 0 none)) = some p) :
      Steps q s .advance { program := p, destructor := some (i, .wait), last := .deferred }
  | wait (i : ℕ) (hpoint : s.destructor = some (i, .wait))
      (hcall : (s.program.threads[i]?).bind Thread.call = none) (hlast : s.last = .done)
      (hgroup : ∀ pt ∈ s.program.points q, pt.group ≠ some 0) :
      Steps q s .advance { s with destructor := some (i, .finished) }
  | runLast (hlast : s.last = .running) : Steps q s .runLast { s with last := .done }

/-- A step of the program with a destructor is one of these. -/
lemma Teardown.steps (h : Teardown.step q s a = some s') : Teardown.Steps q s a s' := by
  cases a with
  | program b =>
    simp only [Teardown.step] at h
    split at h
    next hpermits =>
      obtain ⟨p, hp, rfl⟩ := Option.map_eq_some_iff.mp h
      exact .program b hpermits hp
    next => cases h
  | destroy i =>
    simp only [Teardown.step] at h
    split at h
    next th hth =>
      split at h
      next hboth =>
        obtain rfl := Option.some.inj h
        exact .destroy i hboth.1 hboth.2.2.2.2
      next => cases h
    next => cases h
  | advance =>
    simp only [Teardown.step, Teardown.advance] at h
    split at h
    next => cases h
    next i hpoint =>
      obtain rfl := Option.some.inj h
      exact .readEmpty i hpoint
    next i isEmpty hpoint =>
      obtain rfl := Option.some.inj h
      exact .readChosen i isEmpty hpoint
    next i isTaskChosen hpoint =>
      obtain rfl := Option.some.inj h
      exact .readPauseCount i isTaskChosen hpoint
    next i hpoint =>
      obtain ⟨p, hp, rfl⟩ := Option.map_eq_some_iff.mp h
      exact .push i hpoint hp
    next i hpoint =>
      split at h
      next hboth =>
        obtain rfl := Option.some.inj h
        exact .wait i hpoint hboth.1 hboth.2.1 hboth.2.2
      next => cases h
    next => cases h
  | runLast =>
    simp only [Teardown.step] at h
    split at h
    next hlast =>
      obtain rfl := Option.some.inj h
      exact .runLast hlast
    next => cases h

/-- The program makes a step of its own or none. -/
lemma Teardown.step_program (h : Teardown.step q s a = some s') :
    s'.program = s.program ∨ ∃ b, SerialTaskQueue.step s.program b = some s'.program := by
  cases Teardown.steps h with
  | program b _ hp => exact .inr ⟨_, hp⟩
  | push i _ hp => exact .inr ⟨_, hp⟩
  | _ => exact .inl rfl

/-- The program under the destructor runs like any other. -/
lemma Teardown.reachable {ok : Teardown Q α → TeardownLabel Q α → Prop}
    (h : RunsTo (Teardown.step q) ok {} s) : Reachable s.program := by
  refine h.invariant (I := fun s => Reachable s.program) .refl fun s a s' ih _ hstep => ?_
  rcases Teardown.step_program hstep with heq | ⟨b, hb⟩
  · rw [heq]
    exact ih
  · exact ih.tail trivial hb

end UnifyPrototype.SerialTaskQueue
