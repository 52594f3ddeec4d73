import Statechart.Machine

/-!
# Plans

A plan is a way from the initial snapshot to another one: the events to send, each with the
snapshot that it leads to. Snapshots are told apart by their fingerprints.
-/
namespace Statechart

structure PlanStep (C : Type) where
  event : Event
  snapshot : Snapshot C
  fingerprint : String
deriving DecidableEq

/-- A way from the initial snapshot. -/
structure Plan (C : Type) where
  /-- Where the plan ends. -/
  snapshot : Snapshot C
  fingerprint : String
  steps : List (PlanStep C) := []
deriving DecidableEq

namespace Plan

variable {C : Type}

def size (p : Plan C) : Nat := p.steps.length

def events (p : Plan C) : List Event := p.steps.map PlanStep.event

def extend (p : Plan C) (event : Event) (snapshot : Snapshot C) (fingerprint : String) : Plan C :=
  { snapshot, fingerprint, steps := p.steps ++ [⟨event, snapshot, fingerprint⟩] }

def find? (plans : List (Plan C)) (fingerprint : String) : Option (Plan C) :=
  plans.find? fun p => p.fingerprint == fingerprint

def reaches (plans : List (Plan C)) (fingerprint : String) : Bool :=
  plans.any fun p => p.fingerprint == fingerprint

def toJson (contextToJson : C → Json) (p : Plan C) : Json :=
  .object [
    ("state", p.snapshot.toJson contextToJson),
    ("fingerprint", .str p.fingerprint),
    ("steps", .arr (p.steps.map fun s => .object [
      ("event", s.event.toJson),
      ("state", s.snapshot.toJson contextToJson),
      ("fingerprint", .str s.fingerprint)]))]

end Plan

end Statechart
