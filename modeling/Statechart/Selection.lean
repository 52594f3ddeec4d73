import Statechart.Domain
import Statechart.Failure
import Statechart.Registry

/-!
# Selecting transitions

Every active leaf picks the first transition that its guard lets pass, looking at the leaf
first and then at its ancestors, the nearest first, and at the transitions of one state in
the order they were declared. Picks that leave a common state are in conflict: a pick
displaces the earlier ones that it conflicts with if its source is inside all of theirs;
otherwise the earlier ones stay and it is dropped.
-/
namespace Statechart

/-- Which transitions are looked at. -/
inductive Trigger where
  /-- Those declared for the type of the event. -/
  | event
  /-- Those declared without event. -/
  | eventless
deriving DecidableEq, Repr

namespace Chart

/-- The transitions of one state that a trigger looks at. -/
def offered (c : Chart) (trigger : Trigger) (event : Event) (n : Nat) : List Nat :=
  match trigger with
  | .event => (c.node n).transitionsFor event.type
  | .eventless => (c.node n).always

/-- The transitions that a leaf looks at, in their order. -/
def candidates (c : Chart) (trigger : Trigger) (event : Event) (leaf : Nat) : List Nat :=
  (leaf :: c.ancestors leaf).flatMap (c.offered trigger event)

/-- Whether two transitions leave a common active state. -/
def conflict (c : Chart) (configuration : NodeSet) (s t : Nat) : Bool :=
  !(c.exitSet configuration [s]).disjoint (c.exitSet configuration [t])

/-- Whether the source of a transition is inside the source of another. -/
def isDeeper (c : Chart) (s t : Nat) : Bool :=
  c.isDescendant (c.transition s).source (c.transition t).source

/-- Settles the conflicts of one more pick with those that are kept so far. -/
def settle (c : Chart) (configuration : NodeSet) (kept : List Nat) (t : Nat) : List Nat :=
  let rivals := kept.filter fun k => c.conflict configuration t k
  if rivals.all fun k => c.isDeeper t k then
    (kept.filter fun k => !c.conflict configuration t k) ++ [t]
  else kept

/-- The picks that are left when all conflicts are settled. -/
def withoutConflicts (c : Chart) (configuration : NodeSet) (picks : List Nat) : List Nat :=
  picks.foldl (c.settle configuration) []

end Chart

namespace Registry

variable {C E A : Type}

/-- Whether the guard of a transition passes. -/
def permits (r : Registry C E A) (c : Chart) (context : C) (event : Event) (t : Nat) :
    Except Failure Bool :=
  match (c.transition t).guard with
  | none => .ok true
  | some name =>
    match r.guard? name with
    | none => .error (.guard name event.type .unregistered)
    | some guard =>
      match guard context event with
      | .ok passes => .ok passes
      | .error message => .error (.guard name event.type (.failed message))

/-- The first transition of a list whose guard passes. -/
def firstPermitted (r : Registry C E A) (c : Chart) (context : C) (event : Event) :
    List Nat → Except Failure (Option Nat)
  | [] => .ok none
  | t :: rest => do
    if ← r.permits c context event t then return some t else firstPermitted r c context event rest

/-- What the active leaves pick, each transition once, in document order of the leaves. -/
def picks (r : Registry C E A) (c : Chart) (configuration : NodeSet) (context : C) (event : Event)
    (trigger : Trigger) : Except Failure (List Nat) := do
  let picks ← (c.activeLeaves configuration).mapM fun leaf =>
    r.firstPermitted c context event (c.candidates trigger event leaf)
  return (picks.filterMap id).eraseDups

/-- The transitions that are taken together. -/
def select (r : Registry C E A) (c : Chart) (configuration : NodeSet) (context : C) (event : Event)
    (trigger : Trigger) : Except Failure (List Nat) := do
  return c.withoutConflicts configuration (← r.picks c configuration context event trigger)

end Registry

end Statechart
