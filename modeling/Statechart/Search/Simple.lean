import Statechart.Search.Shortest

/-!
# Simple plans

Depth first: every plan along which no fingerprint comes twice, a plan before the plans that
go on from it, and plans that part at a snapshot in the order of the events they go on with.
-/
namespace Statechart.Search

variable {C E A : Type} [BEq C]

/-- Adds all plans that go on from one, with at most so many events more. `onPath` are the
fingerprints along it. -/
def simpleFrom (m : Machine C E A) (o : SearchOptions C) :
    Nat → Plan C → List String → List (Plan C) → Search (List (Plan C))
  | 0, _, _, _ => outOfFuel
  | fuel + 1, current, onPath, plans =>
    (o.candidates current.snapshot).foldlM
      (fun plans e => do
        let next ← ofResult (m.transition current.snapshot e.2)
        let fingerprint := o.snapshotFingerprint next
        if onPath.contains fingerprint then return plans
        o.checkLimit plans.length
        let plan := current.extend e.2 next fingerprint
        simpleFrom m o fuel plan (fingerprint :: onPath) (plans ++ [plan]))
      plans

/-- All plans along which no fingerprint comes twice. -/
def simple (m : Machine C E A) (o : SearchOptions C) (fuel : Nat) : Search (List (Plan C)) := do
  let first ← start m o
  simpleFrom m o fuel first [first.fingerprint] [first]

end Statechart.Search
