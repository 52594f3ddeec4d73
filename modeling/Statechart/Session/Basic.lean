import Statechart.Journal
import Statechart.Machine
import Statechart.Timers

/-!
# Sessions

A session runs a machine: it holds the current snapshot, the queue of events that wait for
their macrostep, the timers and the actors that the active states asked for, the listeners
and the journal. Whatever can be seen from outside while it runs is noted in its trace, in
the order it happens.

This module holds what single macrosteps do to a session; `Statechart.Session.Calls` holds
the calls that callers make.
-/
namespace Statechart

inductive Status where
  | notStarted
  | running
  | stopped
deriving DecidableEq, Repr

def Status.word : Status → String
  | .notStarted => "NotStarted"
  | .running => "Running"
  | .stopped => "Stopped"

/-- An event that waits for its macrostep. -/
structure Queued where
  event : Event
  /-- The invocation whose actor posted the event; it is dropped if that has no actor any more. -/
  sender : Option String
deriving DecidableEq, Repr

/-- An event from outside, or of a timer. -/
def Queued.external (event : Event) : Queued := ⟨event, none⟩

def Queued.posted (event : Event) : Queued := ⟨event, event.origin⟩

structure RunningActor (C A : Type) where
  handle : Handle
  source : ActorSource C A
  actor : A

/-- Something that can be seen from outside. -/
inductive Observation (C E : Type) where
  /-- An effect was run. -/
  | effect (action : String) (value : E)
  /-- An event was sent from outside. -/
  | sent (event : Event)
  /-- A post through a handle was taken. -/
  | posted (handle : Handle) (event : Event)
  /-- An event was put at the end of the queue. -/
  | queued (item : Queued)
  /-- An event came to its turn after its sender's actor had gone. -/
  | dropped (item : Queued)
  /-- An event was given to the machine. -/
  | handled (event : Event)
  | fired (timer : Timer)
  /-- An actor was made with a context, and started. -/
  | started (handle : Handle) (context : C)
  | received (handle : Handle) (event : Event)
  | stopped (handle : Handle)
  | published (listener : Nat) (snapshot : Snapshot C)

/-- Why a call came to nothing. -/
inductive SessionError where
  | execution (failure : Failure)
  | stopped (session : String)
deriving DecidableEq, Repr

def SessionError.message : SessionError → String
  | .execution failure => failure.message
  | .stopped session => s!"Interpreter {session} has been stopped and cannot be restarted"

structure Session (C E A : Type) where
  machine : Machine C E A
  /-- What the session is called in messages. -/
  name : String
  /-- The time of day that is put on steps of the journal. -/
  time : Timestamp := .epoch
  status : Status := .notStarted
  snapshot : Option (Snapshot C) := none
  queue : List Queued := []
  /-- The posts of actors that are not in the queue yet. -/
  mailbox : List Event := []
  timers : Timers := {}
  /-- The actors that run, in the order they were started. -/
  actors : List (RunningActor C A) := []
  /-- How many actors were ever started. -/
  started : Nat := 0
  listeners : List Nat := []
  /-- How many listeners were ever subscribed. -/
  subscribed : Nat := 0
  journal : Journal := {}
  /-- What could be seen so far, the oldest first. -/
  trace : Array (Observation C E) := #[]

namespace Session

variable {C E A : Type}

/-- Notes what can be seen. -/
def note (s : Session C E A) (o : Observation C E) : Session C E A :=
  { s with trace := s.trace.push o }

/-- Notes what effects gave. -/
def noteEffects (s : Session C E A) (effects : List (String × E)) : Session C E A :=
  effects.foldl (fun s e => s.note (.effect e.1 e.2)) s

/-- Puts an event at the end of the queue. -/
def enqueue (s : Session C E A) (item : Queued) : Session C E A :=
  { s with queue := s.queue ++ [item] }.note (.queued item)

/-! ## Actors -/

/-- Takes one post through a handle. -/
def takePost (handle : Handle) (s : Session C E A) (event : Event) : Session C E A :=
  { s with mailbox := s.mailbox ++ [event.ofOrigin handle.id] }.note (.posted handle event)

/-- Takes posts through a handle; a closed handle takes none. -/
def accept (s : Session C E A) (handle : Handle) (posts : List Event) : Session C E A :=
  if handle.alive then posts.foldl (takePost handle) s else s

def actor? (s : Session C E A) (id : String) : Option (RunningActor C A) :=
  s.actors.find? fun a => a.handle.id == id

def hasActor (s : Session C E A) (id : String) : Bool := s.actors.any fun a => a.handle.id == id

def startActor (s : Session C E A) (context : C) (id : String) (source : ActorSource C A) :
    Session C E A :=
  let handle : Handle := { number := s.started, id }
  let r := source.start (source.create context) handle
  let s := { s with started := s.started + 1 }.note (.started handle context)
  let s := s.accept handle r.posts
  { s with actors := s.actors ++ [⟨handle, source, r.actor⟩] }

/-- Stops an actor that is not on the list any more. -/
def stopRunning (s : Session C E A) (a : RunningActor C A) : Session C E A :=
  let handle := a.handle.close
  (s.note (.stopped handle)).accept handle (a.source.stop a.actor handle).posts

def stopActor (s : Session C E A) (id : String) : Session C E A :=
  match s.actor? id with
  | none => s
  | some a =>
    { s with actors := s.actors.filter fun b => b.handle.number != a.handle.number }.stopRunning a

/-- Sends an event to the actor of an invocation, if there is one. -/
def deliver (s : Session C E A) (id : String) (event : Event) : Session C E A :=
  match s.actor? id with
  | none => s
  | some a =>
    let r := a.source.receive a.actor a.handle event
    let actors := s.actors.map fun b =>
      if b.handle.number = a.handle.number then { b with actor := r.actor } else b
    ({ s with actors }.note (.received a.handle event)).accept a.handle r.posts

/-! ## After a macrostep -/

def execute (context : C) (s : Session C E A) : Command → Session C E A
  | .schedule owner event delayMs => { s with timers := s.timers.schedule owner event delayMs }
  | .cancelTimers owner => { s with timers := s.timers.cancel owner }
  | .invoke _ id src =>
    match s.machine.registry.actor? src with
    | none => s
    | some source => s.startActor context id source
  | .stopActor id => s.stopActor id
  | .sendTo actor event => s.deliver actor event

/-- Ends the life of the session: no timers, no actors (the last started is stopped first),
no queue. -/
def teardown (s : Session C E A) : Session C E A :=
  let s := s.actors.reverse.foldl stopRunning { s with timers := s.timers.clear, actors := [] }
  { s with queue := [], status := .stopped }

/-- Enters a macrostep in the journal, if it made a difference. -/
def record (s : Session C E A) (step : Macrostep C) : Session C E A :=
  let next := step.snapshot
  if next.changed then
    { s with journal := s.journal.push {
        event := next.event.type
        before := (s.snapshot.map Snapshot.value).getD next.value
        after := next.value
        timestamp := s.time
        microsteps := step.microsteps } }
  else s

def publish (s : Session C E A) (snapshot : Snapshot C) : Session C E A :=
  s.listeners.foldl (fun s l => s.note (.published l snapshot)) s

/-- Takes a macrostep over: its commands, its snapshot, and the end of the session if the
machine is done. -/
def apply (s : Session C E A) (step : Macrostep C) : Session C E A :=
  let next := step.snapshot
  let s := ((step.commands.foldl (execute next.context) s).record step).publish next
  let s := { s with snapshot := some next }
  if next.done then s.teardown else s

/-! ## The queue -/

/-- Moves the posts of actors to the end of the queue. -/
def collect (s : Session C E A) : Session C E A :=
  s.mailbox.foldl (fun s e => s.enqueue (.posted e)) { s with mailbox := [] }

/-- What one turn of the queue comes to. -/
inductive Turn (C E A : Type) where
  /-- There is nothing to do. -/
  | idle (s : Session C E A)
  /-- There may be more to do. -/
  | again (s : Session C E A)
  /-- A macrostep failed. -/
  | failed (failure : Failure) (s : Session C E A)

/-- Whether an event is dropped at its turn. -/
def drops (s : Session C E A) (item : Queued) : Bool :=
  match item.sender with
  | none => false
  | some id => !s.hasActor id

/-- Gives an event to the machine. -/
def handle [BEq C] (s : Session C E A) (snapshot : Snapshot C) (event : Event) :
    Turn C E A :=
  let out := s.machine.step snapshot event .live
  let s := (s.note (.handled event)).noteEffects out.effects
  match out.result with
  | .error failure => .failed failure s
  | .ok step => .again (s.apply step)

/-- Takes the next event of the queue. -/
def turn [BEq C] (s : Session C E A) : Turn C E A :=
  let s := s.collect
  if s.status ≠ .running then .idle s
  else match s.queue, s.snapshot with
    | item :: rest, some snapshot =>
      let s := { s with queue := rest }
      if s.drops item then .again (s.note (.dropped item)) else s.handle snapshot item.event
    | _, _ => .idle s

end Session

end Statechart
