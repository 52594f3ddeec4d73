import Statechart.Search.Shortest

/-!
# The graph of snapshots

For the fingerprint of every snapshot that can be reached, where each event leads to. The
snapshots are worked through in the order they are found; only the first snapshot of a
fingerprint is.
-/
namespace Statechart.Search

variable {C E A : Type} [BEq C]

structure Graph (C : Type) where
  /-- The fingerprints found. -/
  visited : List String
  /-- The snapshots found that are not worked through yet. -/
  frontier : List (Snapshot C)
  /-- For each fingerprint worked through, where the fingerprint of each event leads. -/
  edges : Dict (Dict String) := []

def followEvent (m : Machine C E A) (o : SearchOptions C) (current : Snapshot C)
    (g : Graph C × Dict String)
    (e : String × Event) : Search (Graph C × Dict String) := do
  let next ← ofResult (m.transition current e.2)
  let fingerprint := o.snapshotFingerprint next
  let out := g.2.insert e.1 fingerprint
  if g.1.visited.contains fingerprint then return (g.1, out)
  o.checkLimit g.1.visited.length
  let visited := fingerprint :: g.1.visited
  return ({ g.1 with visited, frontier := g.1.frontier ++ [next] }, out)

/-- Works through the frontier, in at most so many snapshots. -/
def adjacencyFrom (m : Machine C E A) (o : SearchOptions C) :
    Nat → Graph C → Search (Dict (Dict String))
  | 0, _ => outOfFuel
  | fuel + 1, g =>
    match g.frontier with
    | [] => return g.edges
    | current :: rest => do
      let (g, out) ← (o.candidates current).foldlM (followEvent m o current)
        ({ g with frontier := rest }, [])
      adjacencyFrom m o fuel { g with edges := g.edges.insert (o.snapshotFingerprint current) out }

/-- For the fingerprint of every snapshot that can be reached, where the fingerprint of each
event leads. -/
def adjacency (m : Machine C E A) (o : SearchOptions C) (fuel : Nat) :
    Search (Dict (Dict String)) := do
  let first ← start m o
  adjacencyFrom m o fuel { visited := [first.fingerprint], frontier := [first.snapshot] }

end Statechart.Search
