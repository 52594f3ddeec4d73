import Statechart.Search.Plan

/-!
# What a search looks at

The events to try in a snapshot are the fixed ones, then those that depend on the snapshot,
then one for each payload of each case; of events with one fingerprint only the first is
tried. A search with a limit fails when it finds more than that.
-/
namespace Statechart

/-- The value and the context of a snapshot, as text. -/
def Snapshot.fingerprint {C : Type} (contextToJson : C → Json) (s : Snapshot C) : String :=
  s.value.render ++ " | " ++ (contextToJson s.context).render

/-- The type of an event, and its payload if it has one, as text. -/
def Event.fingerprint (e : Event) : String :=
  if e.payload.isEmpty then e.type else e.type ++ " " ++ (Json.obj e.payload).render

/-- What a search tries, and how it tells things apart. -/
structure SearchOptions (C : Type) where
  /-- Events to try in every snapshot. -/
  events : List Event := []
  /-- Events to try in one snapshot. -/
  eventsIn : Snapshot C → List Event := fun _ => []
  /-- Event types, each with payloads to try. -/
  cases : List (String × List (Dict Json)) := []
  snapshotFingerprint : Snapshot C → String
  eventFingerprint : Event → String := Event.fingerprint
  /-- How many snapshots, or plans, may be found. -/
  limit : Option Nat := none

inductive SearchError where
  | execution (failure : Failure)
  | limitExceeded (limit : Nat)
deriving DecidableEq

def SearchError.message : SearchError → String
  | .execution failure => failure.message
  | .limitExceeded limit => s!"Search exceeded the limit of {limit}"

/-- A search that may end with an error, or not within the steps it is given. -/
abbrev Search := ExceptT SearchError Option

namespace Search

/-- The search takes more steps than it is given. -/
def outOfFuel {α : Type} : Search α := ExceptT.mk none

/-- Goes on with what a machine answered. -/
def ofResult {α : Type} (r : Except Failure α) : Search α :=
  ExceptT.mk (some (r.mapError .execution))

end Search

namespace SearchOptions

variable {C : Type}

/-- Adds the payloads to try for an event type; those that are not objects are left out. -/
def addCases (o : SearchOptions C) (type : String) (payloads : List Json) : SearchOptions C :=
  let objects := payloads.filterMap fun
    | .obj fields => some fields
    | _ => none
  { o with cases := o.cases ++ [(type, objects)] }

/-- The events of a list whose fingerprints are not in `seen` nor before them, each with its
fingerprint. -/
def distinct (fingerprint : Event → String) (seen : List String) :
    List Event → List (String × Event)
  | [] => []
  | e :: rest =>
    let f := fingerprint e
    if f ∈ seen then distinct fingerprint seen rest
    else (f, e) :: distinct fingerprint (f :: seen) rest

def offered (o : SearchOptions C) (s : Snapshot C) : List Event :=
  o.events ++ o.eventsIn s
    ++ o.cases.flatMap fun c => c.2.map fun payload => { type := c.1, payload }

/-- The events to try in a snapshot, each with its fingerprint. -/
def candidates (o : SearchOptions C) (s : Snapshot C) : List (String × Event) :=
  distinct o.eventFingerprint [] (o.offered s)

/-- Refuses one more find when there are as many as the limit. -/
def checkLimit (o : SearchOptions C) (found : Nat) : Search Unit :=
  match o.limit with
  | none => return ()
  | some limit => if limit ≤ found then throw (.limitExceeded limit) else return ()

end SearchOptions

end Statechart
