import Statechart.Chart.Basic

/-!
# Domains and exit sets

The domain of a transition is the state whose inside the transition leaves and enters again.
A transition from a compound state to targets inside it stays inside unless it says
`reenter`; every other transition leaves the least common compound ancestor of its source
and targets; one without targets leaves nothing.
-/
namespace Statechart.Chart

/-- Whether a transition stays inside its source. -/
def isInternal (c : Chart) (t : Transition) : Bool :=
  !t.reenter && (c.node t.source).isCompound && t.targets.all fun n => c.isDescendant n t.source

/-- The domain of a transition; none if it has no targets. -/
def domain (c : Chart) (t : Nat) : Option Nat :=
  let t := c.transition t
  if t.isTargetless then none
  else if c.isInternal t then some t.source
  else some (c.commonCompound (t.source :: t.targets))

/-- Whether a transition leaves a state if that is active. -/
def exits (c : Chart) (t n : Nat) : Bool :=
  match c.domain t with
  | none => false
  | some d => c.isDescendant n d

/-- The active states that a set of transitions leaves. -/
def exitSet (c : Chart) (configuration : NodeSet) (transitions : List Nat) : NodeSet :=
  configuration.filter fun n => transitions.any fun t => c.exits t n

end Statechart.Chart
