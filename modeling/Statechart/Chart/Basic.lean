import Statechart.Definition.Basic
import Statechart.NodeSet

/-!
# Charts

A chart is a definition laid out for running: its states in document order (every state
before its children, children in declaration order) and its transitions in the order of
their sources. States and transitions are referred to by their numbers. The subtree of a
state is a range of numbers, from the state to the last of its descendants, so containment
is a comparison of numbers.
-/
namespace Statechart

/-- A delayed event: the time after entry in milliseconds, and the type of the event. -/
structure Delayed where
  delayMs : Nat
  event : String
deriving DecidableEq, Repr

/-- An actor to run while a state is active. -/
structure Invocation where
  id : String
  src : String
deriving DecidableEq, Repr

structure Node where
  /-- The declared id, or else the dotted path of keys from the root. -/
  id : String
  key : String
  kind : Kind
  parent : Option Nat
  children : List Nat
  /-- The child that a compound state enters by default. -/
  initial : Option Nat
  /-- What a history state remembers. -/
  history : Option HistoryMode
  /-- What a history state stands for while nothing is remembered, if it says so. -/
  historyTarget : List Nat
  entry : List Action
  exit : List Action
  /-- The transitions for each event type, in the order the types were declared. -/
  on : List (String × List Nat)
  always : List Nat
  after : List Delayed
  invoke : List Invocation
  /-- The number of proper ancestors. -/
  depth : Nat
  /-- One past the last state of the subtree. -/
  stop : Nat
deriving DecidableEq, Repr

namespace Node

/-- What stands for a state that a chart does not have: a leaf without anything. -/
def absent : Node where
  id := ""
  key := ""
  kind := .atomic
  parent := none
  children := []
  initial := none
  history := none
  historyTarget := []
  entry := []
  exit := []
  on := []
  always := []
  after := []
  invoke := []
  depth := 0
  stop := 0

instance : Inhabited Node := ⟨absent⟩

/-- The transitions to try for an event type, in their order. -/
def transitionsFor (n : Node) (event : String) : List Nat := (n.on.lookup event).getD []

def isLeaf (n : Node) : Bool := n.kind.isLeaf

def isCompound (n : Node) : Bool := n.kind == .compound

def isParallel (n : Node) : Bool := n.kind == .parallel

def isFinal (n : Node) : Bool := n.kind == .final

def isHistory (n : Node) : Bool := n.kind == .history

end Node

structure Transition where
  source : Nat
  /-- The event type it waits for; none if it is taken without event. -/
  event : Option String
  guard : Option String
  actions : List Action
  targets : List Nat
  reenter : Bool
deriving DecidableEq, Repr

namespace Transition

/-- What stands for a transition that a chart does not have. -/
def absent : Transition where
  source := 0
  event := none
  guard := none
  actions := []
  targets := []
  reenter := false

instance : Inhabited Transition := ⟨absent⟩

/-- Whether the transition only runs its actions. -/
def isTargetless (t : Transition) : Bool := t.targets.isEmpty

end Transition

/-- The states and transitions of a machine, and the names that states go by. -/
structure Chart where
  nodes : Array Node
  transitions : Array Transition
  /-- Declared ids and dotted paths. -/
  ids : Dict Nat
deriving DecidableEq, Repr

namespace Chart

def root : Nat := 0

def size (c : Chart) : Nat := c.nodes.size

def node (c : Chart) (n : Nat) : Node := c.nodes.getD n .absent

def transition (c : Chart) (t : Nat) : Transition := c.transitions.getD t .absent

/-- The state that goes by a name, which may have a number sign in front. -/
def find? (c : Chart) (name : String) : Option Nat :=
  match name.toList with
  | '#' :: rest => c.ids.get? (String.ofList rest)
  | _ => c.ids.get? name

def stateIds (c : Chart) : List String := c.nodes.toList.map Node.id

/-! ## Ancestry -/

/-- The states met on the way up from a state, for at most so many steps. -/
def climb (c : Chart) : Nat → Nat → List Nat
  | 0, _ => []
  | steps + 1, n =>
    match (c.node n).parent with
    | none => []
    | some p => p :: climb c steps p

/-- The proper ancestors of a state, the nearest first. A state comes after its parent, so
its number bounds the way up. -/
def ancestors (c : Chart) (n : Nat) : List Nat := c.climb n n

/-- Whether `n` is a proper descendant of `a`. -/
def isDescendant (c : Chart) (n a : Nat) : Bool := a < n && n < (c.node a).stop

/-- The proper ancestors of a state below `stop`, the nearest first; all of them if there is
no `stop`. -/
def ancestorsUntil (c : Chart) (n : Nat) (stop : Option Nat) : List Nat :=
  (c.ancestors n).takeWhile fun a => some a != stop

/-- The least common compound ancestor: the nearest proper ancestor of the first state that
is compound and contains all the others; the root if there is none. Parallel states are
passed over, so that a transition between two regions leaves and enters the whole parallel
state. -/
def commonCompound (c : Chart) : List Nat → Nat
  | [] => root
  | head :: tail =>
    ((c.ancestors head).find? fun a =>
      (c.node a).isCompound && tail.all fun n => c.isDescendant n a).getD root

def descendantCount (c : Chart) (n : Nat) : Nat := (c.node n).stop - n - 1

/-! ## Configurations

A configuration is the set of the active states. These questions are answered for any set. -/

/-- The active leaves, in document order. -/
def activeLeaves (c : Chart) (configuration : NodeSet) : List Nat :=
  configuration.toList.filter fun n => (c.node n).isLeaf

/-- The active children of a state, in document order. -/
def activeChildren (c : Chart) (parent : Nat) (configuration : NodeSet) : List Nat :=
  (c.node parent).children.filter fun n => decide (n ∈ configuration)

/-- The children of a state that are not history states. -/
def regions (c : Chart) (parent : Nat) : List Nat :=
  (c.node parent).children.filter fun n => !(c.node n).isHistory

/-- Whether a state has completed, looking at most so many levels down. -/
def isCompleteWithin (c : Chart) (configuration : NodeSet) : Nat → Nat → Bool
  | 0, _ => false
  | levels + 1, n =>
    match (c.node n).kind with
    | .final => true
    | .compound => (c.activeChildren n configuration).any fun k => (c.node k).isFinal
    | .parallel => (c.regions n).all fun k => isCompleteWithin c configuration levels k
    | .atomic | .history => false

/-- Whether a state has completed: it is final, or compound with a final active child, or
parallel with all its regions completed. -/
def isComplete (c : Chart) (configuration : NodeSet) (n : Nat) : Bool :=
  c.isCompleteWithin configuration (c.size + 1) n

end Chart

end Statechart
