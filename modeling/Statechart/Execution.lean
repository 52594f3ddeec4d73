import Statechart.Entry
import Statechart.Failure
import Statechart.Registry

/-!
# Microsteps

A microstep takes one set of transitions. It leaves the active states inside their domains,
the deepest first, after noting what the history states there remember; runs the actions of
the transitions in the order of the set; and enters what the transitions enter, parents
first. Nothing of it is seen from outside before the macrostep that it belongs to has come
to its end: timers and actors are not touched, only commands for them are collected.
-/
namespace Statechart

/-- Whether effects are run or passed over. -/
inductive Mode where
  | live
  | replay
deriving DecidableEq, Repr

/-- What a macrostep asks for from the outside. -/
inductive Command where
  /-- Deliver the event that long after, on behalf of an active state. -/
  | schedule (owner : Nat) (event : Event) (delayMs : Nat)
  /-- Forget what was scheduled on behalf of a state. -/
  | cancelTimers (owner : Nat)
  /-- Start an actor on behalf of an active state. -/
  | invoke (owner : Nat) (id src : String)
  /-- Stop the actor of an invocation. -/
  | stopActor (id : String)
  /-- Send an event to the actor of an invocation. -/
  | sendTo (actor : String) (event : Event)
deriving DecidableEq, Repr

namespace Command

/-- What entering a state asks for: its timers, then its actors. -/
def onEntry (c : Chart) (n : Nat) : List Command :=
  (c.node n).after.map (fun d => .schedule n { type := d.event } d.delayMs)
    ++ (c.node n).invoke.map (fun i => .invoke n i.id i.src)

/-- What leaving a state asks for: the end of its timers, if it has any, and of its actors. -/
def onExit (c : Chart) (n : Nat) : List Command :=
  (if (c.node n).after.isEmpty then [] else [.cancelTimers n])
    ++ (c.node n).invoke.map (fun i => .stopActor i.id)

end Command

/-- The working copy of a snapshot while a macrostep is computed. -/
structure Execution (C E : Type) where
  configuration : NodeSet
  context : C
  history : Dict (List Nat)
  /-- The labels of the actions run so far. -/
  actions : List String := []
  /-- The raised events that wait for their turn. -/
  internal : List Event := []
  commands : List Command := []
  /-- What the effects run so far gave, each with the name of its action. -/
  effects : List (String × E) := []
  microsteps : Nat := 0

/-- A failure, and what effects had given before it. -/
structure Halt (E : Type) where
  failure : Failure
  effects : List (String × E)

/-- A computation that a failure can end. -/
abbrev Attempt (E : Type) := Except (Halt E)

namespace Execution

variable {C E A : Type}

/-- Ends the execution with a failure. -/
def fail {α : Type} (x : Execution C E) (failure : Failure) : Attempt E α :=
  .error ⟨failure, x.effects⟩

/-- Goes on with a result, or ends the execution with its failure. -/
def attempt {α : Type} (x : Execution C E) (result : Except Failure α) : Attempt E α :=
  result.mapError fun failure => ⟨failure, x.effects⟩

def request (x : Execution C E) (cs : List Command) : Execution C E :=
  { x with commands := x.commands ++ cs }

def raise (x : Execution C E) (e : Event) : Execution C E :=
  { x with internal := x.internal ++ [e] }

/-! ## Actions -/

def runNamed (r : Registry C E A) (mode : Mode) (event : Event) (x : Execution C E)
    (name : String) : Attempt E (Execution C E) :=
  match r.action? name with
  | none => x.fail (.action name event.type .unregistered)
  | some (.assign next) =>
    match next x.context event with
    | .ok context => .ok { x with context }
    | .error message => x.fail (.action name event.type (.failed message))
  | some (.effect run) =>
    match mode with
    | .replay => .ok x
    | .live =>
      match run x.context event with
      | .ok value => .ok { x with effects := x.effects ++ [(name, value)] }
      | .error message => x.fail (.action name event.type (.failed message))

def runAction (r : Registry C E A) (mode : Mode) (event : Event) (x : Execution C E)
    (action : Action) : Attempt E (Execution C E) :=
  let x := { x with actions := x.actions ++ [action.label] }
  match action with
  | .named name => runNamed r mode event x name
  | .raise raised => .ok (x.raise raised)
  | .sendTo actor sent => .ok (x.request [.sendTo actor sent])

def runActions (r : Registry C E A) (mode : Mode) (event : Event) (x : Execution C E)
    (actions : List Action) : Attempt E (Execution C E) :=
  actions.foldlM (runAction r mode event) x

/-! ## Leaving states -/

/-- What a history state notes when its parent is left. -/
def remembered (c : Chart) (configuration : NodeSet) (parent : Nat) : HistoryMode → List Nat
  | .shallow => c.activeChildren parent configuration
  | .deep => (c.activeLeaves configuration).filter fun n => c.isDescendant n parent

/-- Notes what the history children of one state remember. -/
def recordChildren (c : Chart) (configuration : NodeSet) (history : Dict (List Nat))
    (parent : Nat) : Dict (List Nat) :=
  (c.node parent).children.foldl
    (fun history k =>
      match (c.node k).history with
      | none => history
      | some mode => history.insert (c.node k).id (remembered c configuration parent mode))
    history

/-- Notes what the history children of all states in a set remember. -/
def recordHistory (c : Chart) (exits : NodeSet) (x : Execution C E) : Execution C E :=
  { x with history := exits.toList.foldl (recordChildren c x.configuration) x.history }

/-- Leaves one state: its exit actions, then the end of its timers and actors. -/
def exitState (c : Chart) (r : Registry C E A) (mode : Mode) (event : Event) (x : Execution C E)
    (n : Nat) : Attempt E (Execution C E) := do
  let x ← x.runActions r mode event (c.node n).exit
  let x := x.request (Command.onExit c n)
  return { x with configuration := x.configuration.erase n }

/-- Leaves all states of a set, the deepest first. -/
def exitStates (c : Chart) (r : Registry C E A) (mode : Mode) (event : Event) (exits : NodeSet)
    (x : Execution C E) : Attempt E (Execution C E) :=
  exits.toList.reverse.foldlM (exitState c r mode event) x

/-! ## Entering states -/

/-- Announces what a final state completes: its parent, and a parallel grandparent that it
was the last to complete. The root is not announced. -/
def raiseCompletion (c : Chart) (final : Nat) (x : Execution C E) : Execution C E :=
  match (c.node final).parent with
  | none => x
  | some parent =>
    if parent = Chart.root then x
    else
      let x := x.raise (.doneState (c.node parent).id)
      match (c.node parent).parent with
      | none => x
      | some grandparent =>
        if grandparent ≠ Chart.root ∧ (c.node grandparent).isParallel
            ∧ c.isComplete x.configuration grandparent then
          x.raise (.doneState (c.node grandparent).id)
        else x

/-- Enters one state: its timers and actors, then its entry actions. -/
def enterState (c : Chart) (r : Registry C E A) (mode : Mode) (event : Event) (x : Execution C E)
    (n : Nat) : Attempt E (Execution C E) := do
  let x := { x with configuration := x.configuration.insert n }
  let x ← (x.request (Command.onEntry c n)).runActions r mode event (c.node n).entry
  return if (c.node n).isFinal then raiseCompletion c n x else x

/-- Enters all states of a set, parents first. -/
def enterStates (c : Chart) (r : Registry C E A) (mode : Mode) (event : Event) (entries : NodeSet)
    (x : Execution C E) : Attempt E (Execution C E) :=
  entries.toList.foldlM (enterState c r mode event) x

/-! ## The step -/

def enterSet (c : Chart) (r : Registry C E A) (mode : Mode) (event : Event)
    (entries : Option NodeSet)
    (x : Execution C E) : Attempt E (Execution C E) :=
  match entries with
  | none => x.fail (.endlessEntry event.type)
  | some entries => enterStates c r mode event entries x

def microstep (c : Chart) (r : Registry C E A) (mode : Mode) (transitions : List Nat)
    (event : Event)
    (x : Execution C E) : Attempt E (Execution C E) := do
  let x := { x with microsteps := x.microsteps + 1 }
  let exits := c.exitSet x.configuration transitions
  let x ← exitStates c r mode event exits (recordHistory c exits x)
  let x ← transitions.foldlM (fun x t => x.runActions r mode event (c.transition t).actions) x
  enterSet c r mode event (c.entrySet x.history transitions) x

/-- Enters the root and its default inside. -/
def enterInitial (c : Chart) (r : Registry C E A) (mode : Mode) (event : Event)
    (x : Execution C E) : Attempt E (Execution C E) :=
  enterSet c r mode event c.initialEntrySet { x with microsteps := x.microsteps + 1 }

def exitAll (c : Chart) (r : Registry C E A) (mode : Mode) (event : Event) (x : Execution C E) :
    Attempt E (Execution C E) :=
  exitStates c r mode event x.configuration x

end Execution

end Statechart
