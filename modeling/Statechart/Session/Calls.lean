import Statechart.Session.Basic

/-!
# The calls of a session

A call that works off the queue goes on until there is nothing to do or a macrostep fails.
Actors that answer each other, and timers without delay, can keep it going for ever; so
these calls are told how many turns they may take (`fuel`), and come to no reply if that is
not enough. More fuel never changes a reply.

* `drain_mono`, `fire_mono`: a reply stays the same with more fuel.
-/
namespace Statechart

/-- What a call comes to, and the session after it. -/
structure Reply (C E A α : Type) where
  answer : Except SessionError α
  session : Session C E A

namespace Session

variable {C E A : Type}

/-- A session that is not started yet. -/
def ofMachine (machine : Machine C E A) (name : String) (journalLimit : Option Nat) :
    Session C E A :=
  { machine, name, journal := { limit := journalLimit } }

/-- A reply without content. -/
def done (s : Session C E A) : Reply C E A Unit := ⟨.ok (), s⟩

/-- Takes events from the queue until there is nothing to do. -/
def drain [BEq C] : Nat → Session C E A → Option (Reply C E A Unit)
  | 0, _ => none
  | fuel + 1, s =>
    match s.turn with
    | .idle s => some s.done
    | .failed failure s => some ⟨.error (.execution failure), s⟩
    | .again s => drain fuel s

theorem drain_mono [BEq C] {fuel more : Nat} {s : Session C E A} {r : Reply C E A Unit}
    (h : s.drain fuel = some r) (le : fuel ≤ more) : s.drain more = some r := by
  induction fuel generalizing more s with
  | zero => simp [drain] at h
  | succ n ih =>
    obtain ⟨m, rfl⟩ : ∃ m, more = m + 1 := ⟨more - 1, by omega⟩
    rw [drain] at h ⊢
    cases ht : s.turn with
    | idle t => simpa [ht] using h
    | failed failure t => simpa [ht] using h
    | again t =>
      rw [ht] at h
      exact ih h (by omega)

/-- The current snapshot, as the reply of a start. -/
def current (s : Session C E A) : Reply C E A (Snapshot C) :=
  match s.snapshot with
  | none => ⟨.error (.stopped s.name), s⟩
  | some snapshot => ⟨.ok snapshot, s⟩

/-- Enters the initial configuration, then works off what was sent before. -/
def start [BEq C] (fuel : Nat) (s : Session C E A) : Option (Reply C E A (Snapshot C)) :=
  match s.status with
  | .stopped => some ⟨.error (.stopped s.name), s⟩
  | .running => some s.current
  | .notStarted =>
    let out := s.machine.startStep .live
    let s := s.noteEffects out.effects
    match out.result with
    | .error failure => some ⟨.error (.execution failure), s⟩
    | .ok step => do
      let reply ← ({ s with status := .running }.apply step).drain fuel
      return match reply.answer with
        | .error e => ⟨.error e, reply.session⟩
        | .ok () => reply.session.current

/-- Sends an event. A session that is not started keeps it for later, a stopped one ignores it. -/
def send [BEq C] (fuel : Nat) (s : Session C E A) (event : Event) :
    Option (Reply C E A Unit) :=
  match s.status with
  | .stopped => some s.done
  | .notStarted => some ((s.note (.sent event)).enqueue (.external event)).done
  | .running => ((s.note (.sent event)).enqueue (.external event)).drain fuel

/-- Works off what actors have posted. -/
def flush [BEq C] (fuel : Nat) (s : Session C E A) : Option (Reply C E A Unit) :=
  if s.status = .running then s.drain fuel else some s.done

/-- Fires the timers that are due by a time, one after the other, each with all that follows
from it. -/
def fire [BEq C] (limit : Nat) : Nat → Session C E A → Option (Reply C E A Unit)
  | 0, _ => none
  | fuel + 1, s =>
    if s.status ≠ .running then some s.done
    else match s.timers.take? limit with
      | none => some s.done
      | some (timer, timers) => do
        let s := ({ s with timers }.note (.fired timer)).enqueue (.external timer.event)
        let reply ← s.drain fuel
        match reply.answer with
        | .error e => return ⟨.error e, reply.session⟩
        | .ok () => fire limit fuel reply.session

theorem fire_mono [BEq C] {limit fuel more : Nat} {s : Session C E A} {r : Reply C E A Unit}
    (h : s.fire limit fuel = some r) (le : fuel ≤ more) : s.fire limit more = some r := by
  induction fuel generalizing more s with
  | zero => simp [fire] at h
  | succ n ih =>
    obtain ⟨m, rfl⟩ : ∃ m, more = m + 1 := ⟨more - 1, by omega⟩
    have hm : n ≤ m := by omega
    rw [fire] at h ⊢
    by_cases running : s.status ≠ .running
    · rwa [if_pos running] at h ⊢
    · rw [if_neg running] at h ⊢
      cases ht : s.timers.take? limit with
      | none => simpa [ht] using h
      | some due =>
        simp only [ht, Option.bind_eq_bind, Option.bind_eq_some_iff] at h ⊢
        obtain ⟨reply, hd, h⟩ := h
        refine ⟨reply, drain_mono hd hm, ?_⟩
        cases ha : reply.answer with
        | error e => simpa [ha] using h
        | ok u =>
          simp only [ha] at h ⊢
          exact ih h hm

/-- Lets `ms` whole milliseconds pass, however many. A part of a millisecond and a clock that
overflows are not modelled (`Timers`). -/
def advance [BEq C] (fuel : Nat) (s : Session C E A) (ms : Nat) :
    Option (Reply C E A Unit) :=
  if s.status ≠ .running then some s.done
  else do
    let reply ← s.drain fuel
    match reply.answer with
    | .error e => return ⟨.error e, reply.session⟩
    | .ok () =>
      let limit := reply.session.timers.now + ms
      let reply ← reply.session.fire limit fuel
      match reply.answer with
      | .error e => return ⟨.error e, reply.session⟩
      | .ok () => return { reply.session with timers := reply.session.timers.advanceTo limit }.done

/-- Leaves all states and ends the session. The session ends even if an exit action fails. -/
def stop (s : Session C E A) : Reply C E A Unit :=
  match s.status, s.snapshot with
  | .stopped, _ => s.done
  | .notStarted, _ => { s with status := .stopped, queue := [] }.done
  | .running, none => s.teardown.done
  | .running, some snapshot =>
    let out := s.machine.exitStep snapshot .live
    let s := (s.noteEffects out.effects).teardown
    match out.result with
    | .error failure => ⟨.error (.execution failure), s⟩
    | .ok _ => s.done

/-- Gives the session up; one that runs is torn down without leaving its states. -/
def drop (s : Session C E A) : Session C E A := if s.status = .running then s.teardown else s

/-- Posts an event through the handle of a number; it is taken if that actor runs. -/
def post (s : Session C E A) (number : Nat) (event : Event) : Session C E A :=
  match s.actors.find? fun a => a.handle.number == number with
  | none => s
  | some a => s.accept a.handle [event]

/-- Adds a listener, which is called for every snapshot from now on. -/
def subscribe (s : Session C E A) : Nat × Session C E A :=
  (s.subscribed,
    { s with listeners := s.listeners ++ [s.subscribed], subscribed := s.subscribed + 1 })

/-- Takes a listener out; tells whether it was there. -/
def unsubscribe (s : Session C E A) (listener : Nat) : Bool × Session C E A :=
  (s.listeners.contains listener, { s with listeners := s.listeners.filter (· != listener) })

/-- The trace so far, and the session with an empty one. -/
def takeTrace (s : Session C E A) : List (Observation C E) × Session C E A :=
  (s.trace.toList, { s with trace := #[] })

end Session

end Statechart
