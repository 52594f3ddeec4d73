import Statechart.Actor
import Statechart.Chart.Build
import Statechart.Quoted

/-!
# Registered guards, actions and actor sources

What the names in a definition stand for. Guards and actions see the context and the event
that is being handled; they may fail with a message. An assignment gives the next context;
an effect gives a value that the run reports, and is passed over when a machine is only
replayed.
-/
namespace Statechart

/-- Decides whether a transition may be taken. -/
abbrev Guard (C : Type) := C → Event → Except String Bool

namespace Guard

variable {C : Type}

/-- A guard that cannot fail. -/
def ofPredicate (p : C → Event → Bool) : Guard C := fun context event => .ok (p context event)

def ofContext (p : C → Bool) : Guard C := ofPredicate fun context _ => p context

def ofEvent (p : Event → Bool) : Guard C := ofPredicate fun _ event => p event

def shown (_ : Guard C) : String := "Guard(..)"

end Guard

/-- What a named action does. -/
inductive Routine (C E : Type) where
  | assign (next : C → Event → Except String C)
  | effect (run : C → Event → Except String E)

namespace Routine

variable {C E : Type}

/-- An assignment that cannot fail. -/
def ofAssign (next : C → Event → C) : Routine C E :=
  .assign fun context event => .ok (next context event)

/-- An effect that cannot fail. -/
def ofEffect (run : C → Event → E) : Routine C E :=
  .effect fun context event => .ok (run context event)

def isAssign : Routine C E → Bool
  | .assign _ => true
  | .effect _ => false

/-- How an action is shown. -/
def shown : Routine C E → String
  | .assign _ => "Action::Assign(..)"
  | .effect _ => "Action::Effect(..)"

end Routine

/-- Guards, actions and actor sources by name. -/
structure Registry (C E A : Type) where
  guards : Dict (Guard C) := []
  actions : Dict (Routine C E) := []
  actors : Dict (ActorSource C A) := []

namespace Registry

variable {C E A : Type}

/-- Registers a guard, in place of the one of that name. -/
def addGuard (r : Registry C E A) (name : String) (guard : Guard C) : Registry C E A :=
  { r with guards := r.guards.insert name guard }

/-- Registers an action, in place of the one of that name. -/
def addAction (r : Registry C E A) (name : String) (action : Routine C E) : Registry C E A :=
  { r with actions := r.actions.insert name action }

/-- Registers an actor source, in place of the one of that name. -/
def addActor (r : Registry C E A) (src : String) (source : ActorSource C A) : Registry C E A :=
  { r with actors := r.actors.insert src source }

def guard? (r : Registry C E A) (name : String) : Option (Guard C) := r.guards.get? name

def action? (r : Registry C E A) (name : String) : Option (Routine C E) := r.actions.get? name

def actor? (r : Registry C E A) (src : String) : Option (ActorSource C A) := r.actors.get? src

/-- The names that definitions may use. -/
def names (r : Registry C E A) : Names where
  guard := r.guards.contains
  action := r.actions.contains
  actor := r.actors.contains

/-- How a registry is shown: its names, in order. -/
def shown (r : Registry C E A) : String :=
  "Implementations \x7b guards: " ++ Quoted.list r.guards.keys
    ++ ", actions: " ++ Quoted.list r.actions.keys
    ++ ", actors: " ++ Quoted.list r.actors.keys ++ " \x7d"

end Registry

end Statechart
