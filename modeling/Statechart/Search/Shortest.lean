import Statechart.Search.Options

/-!
# Shortest plans

Breadth first: the plans found so far are worked through in the order they were found, and
every snapshot whose fingerprint is new gives one more plan. So the plan for a fingerprint
has as few events as any way to it, and of the ways with that many it is the one whose
events come first.
-/
namespace Statechart.Search

variable {C E A : Type} [BEq C]

/-- The plan without events. -/
def start (m : Machine C E A) (o : SearchOptions C) : Search (Plan C) := do
  let snapshot ← ofResult m.initial
  return { snapshot, fingerprint := o.snapshotFingerprint snapshot }

/-- Tries one event at the end of a plan, and adds the plan for where it leads if that is new. -/
def tryEvent (m : Machine C E A) (o : SearchOptions C) (current : Plan C) (plans : List (Plan C))
    (event : Event) : Search (List (Plan C)) := do
  let next ← ofResult (m.transition current.snapshot event)
  let fingerprint := o.snapshotFingerprint next
  if Plan.reaches plans fingerprint then return plans
  o.checkLimit plans.length
  return plans ++ [current.extend event next fingerprint]

/-- Works through the plans from a position on, in at most so many plans. -/
def shortestFrom (m : Machine C E A) (o : SearchOptions C) :
    Nat → Nat → List (Plan C) → Search (List (Plan C))
  | 0, _, _ => outOfFuel
  | fuel + 1, position, plans =>
    match plans[position]? with
    | none => return plans
    | some current => do
      let events := o.candidates current.snapshot
      let plans ← events.foldlM (fun plans e => tryEvent m o current plans e.2) plans
      shortestFrom m o fuel (position + 1) plans

/-- A shortest plan for every snapshot that can be reached. -/
def shortest (m : Machine C E A) (o : SearchOptions C) (fuel : Nat) : Search (List (Plan C)) := do
  shortestFrom m o fuel 0 [← start m o]

/-- The shortest plans that end where a test passes. -/
def shortestTo (m : Machine C E A) (o : SearchOptions C) (fuel : Nat) (goal : Snapshot C → Bool) :
    Search (List (Plan C)) := do
  return (← shortest m o fuel).filter fun p => goal p.snapshot

end Statechart.Search
