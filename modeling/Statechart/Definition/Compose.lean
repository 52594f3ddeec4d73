import Statechart.Definition.Basic

/-!
# Composing definitions

One function per thing that can be said about a state; each adds to the definition it is
given. A transition declared again for the same event, or for the same delay, joins the
earlier ones behind them.
-/
namespace Statechart

namespace TransitionDef

def toTarget (target : String) : TransitionDef := { target := [target] }

def toAll (targets : List String) : TransitionDef := { target := targets }

/-- A transition that only runs actions. -/
def targetless : TransitionDef := {}

def withGuard (t : TransitionDef) (name : String) : TransitionDef := { t with guard := some name }

def addAction (t : TransitionDef) (action : Action) : TransitionDef :=
  { t with actions := t.actions ++ [action] }

def withReenter (t : TransitionDef) (reenter : Bool) : TransitionDef := { t with reenter }

end TransitionDef

namespace Definition

def ofKey (key : String) : Definition := { key }

def withId (d : Definition) (id : String) : Definition := { d with id := some id }

def withKind (d : Definition) (kind : Kind) : Definition := { d with kind := some kind }

def asParallel (d : Definition) : Definition := d.withKind .parallel

def asFinal (d : Definition) : Definition := d.withKind .final

def asHistory (d : Definition) (mode : HistoryMode) : Definition :=
  { d with history := some mode }.withKind .history

def addHistoryTarget (d : Definition) (target : String) : Definition :=
  { d with target := d.target ++ [target] }

def withInitial (d : Definition) (key : String) : Definition := { d with initial := some key }

def addState (d : Definition) (child : Definition) : Definition :=
  { d with states := d.states ++ [child] }

/-- Puts a transition behind those of its event; the first of an event opens a handler. -/
def addToHandlers (event : String) (t : TransitionDef) : List Handler → List Handler
  | [] => [⟨event, [t]⟩]
  | h :: rest =>
    if h.event = event then { h with transitions := h.transitions ++ [t] } :: rest
    else h :: addToHandlers event t rest

def addTransition (d : Definition) (event : String) (t : TransitionDef) : Definition :=
  { d with on := addToHandlers event t d.on }

def addOn (d : Definition) (event target : String) : Definition :=
  d.addTransition event (.toTarget target)

def addAlways (d : Definition) (t : TransitionDef) : Definition :=
  { d with always := d.always ++ [t] }

/-- Puts a transition behind those of its delay; the first of a delay opens it. -/
def addToDelays (delayMs : Nat) (t : TransitionDef) : List Delay → List Delay
  | [] => [⟨delayMs, [t]⟩]
  | x :: rest =>
    if x.delayMs = delayMs then { x with transitions := x.transitions ++ [t] } :: rest
    else x :: addToDelays delayMs t rest

def addAfter (d : Definition) (delayMs : Nat) (t : TransitionDef) : Definition :=
  { d with after := addToDelays delayMs t d.after }

def addOnDone (d : Definition) (t : TransitionDef) : Definition :=
  { d with onDone := d.onDone ++ [t] }

def addEntry (d : Definition) (action : Action) : Definition :=
  { d with entry := d.entry ++ [action] }

def addExit (d : Definition) (action : Action) : Definition := { d with exit := d.exit ++ [action] }

def addInvoke (d : Definition) (id src : String) : Definition :=
  { d with invoke := d.invoke ++ [{ id := some id, src }] }

end Definition

end Statechart
