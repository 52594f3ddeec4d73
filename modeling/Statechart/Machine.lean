import Statechart.Execution
import Statechart.Selection
import Statechart.Snapshot

/-!
# Machines and macrosteps

A machine is a chart, what is registered under the names in it, an initial context and a
ceiling on microsteps. One event is worked off in one macrostep: the transitions for the
event first, then transitions without event until none is permitted, then the oldest raised
event, and so on until nothing is left or the root has completed.

Two things end a macrostep with a failure of the definition. Selecting the same transitions
again in the same situation (`Moment`) would go on for ever, and so is a cycle; and the
microsteps of one macrostep may not exceed the ceiling.
-/
namespace Statechart

structure Machine (C E A : Type) where
  chart : Chart
  registry : Registry C E A
  /-- The context at the start. -/
  context : C
  /-- How many microsteps a macrostep may take. -/
  maxMicrosteps : Nat

/-- What a macrostep comes to: the next snapshot, and what it asks for from the outside. -/
structure Macrostep (C : Type) where
  snapshot : Snapshot C
  commands : List Command
  microsteps : Nat
deriving DecidableEq

/-- A macrostep or its failure, with what the effects gave that were run for it. -/
structure Outcome (C E : Type) where
  result : Except Failure (Macrostep C)
  effects : List (String × E)

/-- All that the rest of a macrostep depends on when transitions have been selected. -/
structure Moment (C : Type) where
  transitions : List Nat
  configuration : NodeSet
  context : C
  history : Dict (List Nat)
  internal : List Event

/-- Whether two moments are the same; contexts and payloads are compared as values. -/
def Moment.same {C : Type} [BEq C] (a b : Moment C) : Bool :=
  a.transitions == b.transitions && a.configuration == b.configuration
    && a.context == b.context && a.history == b.history && a.internal == b.internal

/-- The transitions to take next: which, for which event, and the raised events that are
left then. -/
structure Choice where
  transitions : List Nat
  event : Event
  internal : List Event

namespace Machine

variable {C E A : Type}

/-- The ceiling on microsteps where none is given. -/
def defaultMaxMicrosteps : Nat := 1000

/-- A machine for a definition, or all that is wrong with the definition. -/
def build (registry : Registry C E A) (context : C) (maxMicrosteps : Nat) (d : Definition) :
    Except (List Problem) (Machine C E A) := do
  return { chart := ← Chart.build registry.names d, registry, context, maxMicrosteps }

def id (m : Machine C E A) : String := (m.chart.node Chart.root).id

def withContext (m : Machine C E A) (context : C) : Machine C E A := { m with context }

/-! ## Going on until nothing is left -/

/-- What to take next: transitions without event that are permitted for the event handled
last; else the transitions for the oldest raised event that has any, the events before it
being dropped. -/
def choose (m : Machine C E A) (configuration : NodeSet) (context : C) (current : Event) :
    List Event → Except Failure (Option Choice)
  | [] => do
    let eventless ← m.registry.select m.chart configuration context current .eventless
    return if eventless.isEmpty then none else some ⟨eventless, current, []⟩
  | raised :: rest => do
    let eventless ← m.registry.select m.chart configuration context current .eventless
    if !eventless.isEmpty then return some ⟨eventless, current, raised :: rest⟩
    let selected ← m.registry.select m.chart configuration context raised .event
    if !selected.isEmpty then return some ⟨selected, raised, rest⟩
    choose m configuration context raised rest

/-- How a transition is named in messages. -/
def describe (m : Machine C E A) (t : Nat) : String :=
  let t := m.chart.transition t
  let source := (m.chart.node t.source).id
  if t.isTargetless then source ++ " (targetless)"
  else source ++ " -> " ++ ", ".intercalate (t.targets.map fun n => (m.chart.node n).id)

def isDone (m : Machine C E A) (configuration : NodeSet) : Bool :=
  m.chart.isComplete configuration Chart.root

def cycleFailure (m : Machine C E A) (trigger : Event) (moment : Moment C) : Failure :=
  .cycle (.ofConfiguration m.chart Chart.root moment.configuration) trigger.type
    (moment.transitions.map m.describe)

/-- Takes what there is to take until nothing is left or the root has completed, in at most
`budget` microsteps. `seen` are the moments of this macrostep so far, `current` is the event
handled last. -/
def stabilize [BEq C] (m : Machine C E A) (mode : Mode) (trigger : Event) :
    Nat → List (Moment C) → Event → Execution C E → Attempt E (Execution C E)
  | budget, seen, current, x => do
    if m.isDone x.configuration then return x
    match ← x.attempt (m.choose x.configuration x.context current x.internal) with
    | none => return x
    | some choice =>
      let moment : Moment C :=
        ⟨choice.transitions, x.configuration, x.context, x.history, choice.internal⟩
      if seen.any moment.same then x.fail (m.cycleFailure trigger moment)
      else match budget with
        | 0 => x.fail (.microstepLimit trigger.type m.maxMicrosteps)
        | budget + 1 => do
          let x ← Execution.microstep m.chart m.registry mode choice.transitions choice.event
            { x with internal := choice.internal }
          stabilize m mode trigger budget (moment :: seen) choice.event x

/-- Goes on after the first microstep. -/
def settle [BEq C] (m : Machine C E A) (mode : Mode) (trigger : Event) (x : Execution C E) :
    Attempt E (Execution C E) :=
  m.stabilize mode trigger (m.maxMicrosteps - x.microsteps) [] trigger x

/-! ## Macrosteps -/

/-- The macrostep that an execution has come to. -/
def finish (m : Machine C E A) (event : Event) (done changed : Bool) (x : Execution C E) :
    Macrostep C where
  snapshot := {
    value := .ofConfiguration m.chart Chart.root x.configuration
    configuration := x.configuration
    context := x.context
    history := x.history
    event
    actions := x.actions
    done
    changed }
  commands := x.commands
  microsteps := x.microsteps

def outcome (finish : Execution C E → Macrostep C) : Attempt E (Execution C E) → Outcome C E
  | .ok x => ⟨.ok (finish x), x.effects⟩
  | .error halt => ⟨.error halt.failure, halt.effects⟩

/-- The working copy of a snapshot. -/
def execution (s : Snapshot C) : Execution C E :=
  { configuration := s.configuration, context := s.context, history := s.history }

/-- The execution of entering the initial configuration. -/
def runStart [BEq C] (m : Machine C E A) (mode : Mode) : Attempt E (Execution C E) := do
  let x ← Execution.enterInitial m.chart m.registry mode .init
    { configuration := ∅, context := m.context, history := [] }
  m.settle mode .init x

def startStep [BEq C] (m : Machine C E A) (mode : Mode) : Outcome C E :=
  outcome (fun x => m.finish .init (m.isDone x.configuration) true x) (m.runStart mode)

/-- The macrostep of an event that makes no difference. -/
def unchanged (s : Snapshot C) (event : Event) : Macrostep C where
  snapshot := { s with event, actions := [], changed := false }
  commands := []
  microsteps := 0

/-- Whether an execution that began at a snapshot made a difference. -/
def hasChanged [BEq C] (s : Snapshot C) (x : Execution C E) : Bool :=
  s.configuration != x.configuration || s.context != x.context || !x.actions.isEmpty

/-- The execution of transitions selected for an event. -/
def runStep [BEq C] (m : Machine C E A) (mode : Mode) (s : Snapshot C) (event : Event)
    (transitions : List Nat) : Attempt E (Execution C E) := do
  let x ← Execution.microstep m.chart m.registry mode transitions event (execution s)
  m.settle mode event x

/-- Works off one event. If it selects no transition, or the machine is done, it makes no
difference. -/
def step [BEq C] (m : Machine C E A) (s : Snapshot C) (event : Event) (mode : Mode) :
    Outcome C E :=
  if s.done then ⟨.ok (unchanged s event), []⟩
  else match m.registry.select m.chart s.configuration s.context event .event with
    | .error failure => ⟨.error failure, []⟩
    | .ok [] => ⟨.ok (unchanged s event), []⟩
    | .ok transitions =>
      outcome (fun x => m.finish event (m.isDone x.configuration) (hasChanged s x) x)
        (m.runStep mode s event transitions)

/-- Leaves every active state, the deepest first. -/
def exitStep (m : Machine C E A) (s : Snapshot C) (mode : Mode) : Outcome C E :=
  outcome (m.finish .stop s.done true)
    (Execution.exitAll m.chart m.registry mode .stop (execution s))

/-- The initial snapshot; effects are passed over. -/
def initial [BEq C] (m : Machine C E A) : Except Failure (Snapshot C) :=
  (m.startStep .replay).result.map Macrostep.snapshot

/-- The snapshot after an event; effects are passed over. -/
def transition [BEq C] (m : Machine C E A) (s : Snapshot C) (event : Event) :
    Except Failure (Snapshot C) :=
  (m.step s event .replay).result.map Macrostep.snapshot

end Machine

end Statechart
