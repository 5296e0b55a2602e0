import UnifyPrototype.Utils.Runs
import UnifyPrototype.Utils.Tally

/-!
# `ThreadSafeOutputFileStream`

A shallow embedding of `ThreadSafeOutputFileStream.cc`: one stream, any number of threads that call
`write`, and the destructor once all of them have returned. Each operation on `msgBeingLogged_` and
on `waitingMessages_` is one step; `file_ << tmp` is one step for each character, since nothing but
the code itself keeps two threads from streaming at a time.
-/

namespace UnifyPrototype.ThreadSafeOutputFileStream

open UnifyPrototype.Utils

/-- A `std::string`. -/
abbrev Message := List Char

/-- The loop `while (waitingMessages_.try_pop(tmp)) file_ << tmp;` of `write` and of the destructor:
its next operation, with what is still to be streamed of `tmp`. -/
inductive Drain
  | tryPop
  | stream (tmp : Message)
deriving DecidableEq, Repr

/-- The next operation of a thread in `write`. -/
inductive Point
  | push (msg : Message)
  | compareExchange
  | drain (d : Drain)
  | store
deriving DecidableEq, Repr

/-- Where the destructor is. -/
inductive Destructor
  | notCalled
  | drain (d : Drain)
  | close
  | returned
deriving DecidableEq, Repr

/-- The content of the file, the other data members, the threads and the destructor. The last two
record the messages of the calls of `write`, and in which order their pushes took effect. -/
structure State where
  file : List Char := []
  msgBeingLogged : Bool := false
  waitingMessages : List Message := []
  threads : List (Option Point) := []
  destructor : Destructor := .notCalled
  written : List Message := []
  pushed : List Message := []
deriving DecidableEq, Repr

/-- One operation of the loop; `none` if it ends. -/
def Drain.step (s : State) : Drain → State × Option Drain
  | .tryPop =>
    match s.waitingMessages with
    | tmp :: rest => ({ s with waitingMessages := rest }, some (.stream tmp))
    | [] => (s, none)
  | .stream (c :: tmp) => ({ s with file := s.file ++ [c] }, some (.stream tmp))
  | .stream [] => (s, some .tryPop)

/-- One operation of `write`. -/
def Point.step (s : State) : Point → State × Option Point
  | .push msg =>
    ({ s with waitingMessages := s.waitingMessages ++ [msg], pushed := s.pushed ++ [msg] },
      some .compareExchange)
  | .compareExchange =>
    if s.msgBeingLogged then (s, none)
    else ({ s with msgBeingLogged := true }, some (.drain .tryPop))
  | .drain d =>
    let (s, next) := d.step s
    (s, some ((next.map .drain).getD .store))
  | .store => ({ s with msgBeingLogged := false }, none)

/-- One operation of the destructor. -/
def Destructor.step (s : State) : Destructor → Option (State × Destructor)
  | .notCalled => none
  | .drain d =>
    let (s, next) := d.step s
    some (s, (next.map .drain).getD .close)
  | .close => some (s, .returned)
  | .returned => none

/-- The moves: a thread appears, thread `i` calls `write`, thread `i` makes its next operation, the
destructor is called, the destructor makes its next operation. -/
inductive Label
  | fork
  | write (i : ℕ) (msg : Message)
  | advance (i : ℕ)
  | destroy
  | advanceDestructor
deriving DecidableEq, Repr

/-- No call of `write` is in progress. -/
def State.Idle (s : State) : Prop :=
  ∀ p ∈ s.threads, p = none

instance (s : State) : Decidable s.Idle :=
  inferInstanceAs (Decidable (∀ p ∈ s.threads, p = none))

/-- One step. The destructor is called when all calls of `write` have returned, and none is made
after it. -/
def step (s : State) : Label → Option State
  | .fork => some { s with threads := s.threads ++ [none] }
  | .write i msg =>
    if s.destructor = .notCalled ∧ s.threads[i]? = some none then
      some { s with
        threads := s.threads.set i (some (.push msg))
        written := s.written ++ [msg] }
    else none
  | .advance i =>
    match s.threads[i]? with
    | some (some p) =>
      let (s', next) := p.step s
      some { s' with threads := s.threads.set i next }
    | _ => none
  | .destroy =>
    if s.destructor = .notCalled ∧ s.Idle then some { s with destructor := .drain .tryPop }
    else none
  | .advanceDestructor =>
    (s.destructor.step s).map fun (s', next) => { s' with destructor := next }

/-- The states that some interleaving reaches from a new stream. -/
abbrev Reachable (s : State) : Prop :=
  Reaches step {} s

end UnifyPrototype.ThreadSafeOutputFileStream
