import Statechart.StateValue

/-!
# Snapshots

A snapshot is what a macrostep leaves behind. It is never changed afterwards: the next
macrostep makes a new one. The context is of any type `C` that the machine's guards and
actions work on.
-/
namespace Statechart

/-- A machine at rest between two events. -/
structure Snapshot (C : Type) where
  value : StateValue
  /-- The active states. -/
  configuration : NodeSet
  context : C
  /-- What each history state remembers, by its id. -/
  history : Dict (List Nat)
  /-- The event that led here. -/
  event : Event
  /-- The labels of the actions that were run on the way here, in order. -/
  actions : List String
  /-- Whether the root has completed. -/
  done : Bool
  /-- Whether the event made any difference. -/
  changed : Bool
deriving DecidableEq, Repr

namespace Snapshot

variable {C : Type}

def matches? (s : Snapshot C) (path : String) : Bool := s.value.matches? path

def toJson (contextToJson : C → Json) (s : Snapshot C) : Json :=
  .object [
    ("value", s.value.toJson),
    ("configuration", .ofNats s.configuration.toList),
    ("context", contextToJson s.context),
    ("history", .obj (s.history.map fun e => (e.1, .ofNats e.2))),
    ("event", s.event.toJson),
    ("actions", .ofTexts s.actions),
    ("done", .bool s.done),
    ("changed", .bool s.changed)]

/-- Reads a snapshot, given how its context is read. Every field must be there. -/
def read (readContext : Nat → Draft → Option C) : Nat → Draft → Option (Snapshot C)
  | 0, _ => none
  | room + 1, d => do
    let nats := Draft.list? fun _ => Draft.nat?
    let fields ← d.fields?
      ["value", "configuration", "context", "history", "event", "actions", "done", "changed"]
    return {
      value := ← fields.required "value" (StateValue.read room)
      configuration := NodeSet.ofList (← fields.required "configuration" (nats room))
      context := ← fields.required "context" (readContext room)
      history := ← fields.required "history" (Draft.dict? nats room)
      event := ← fields.required "event" (Event.read room)
      actions := ← fields.required "actions" (Draft.list? (fun _ => Draft.text?) room)
      done := ← fields.required "done" Draft.bool?
      changed := ← fields.required "changed" Draft.bool? }

def ofJson? (j : Json) : Option (Snapshot Json) :=
  read Draft.value? Draft.maxDepth (.ofJson j)

def ofText? (text : String) : Option (Snapshot Json) := do
  read Draft.value? Draft.maxDepth (← Draft.ofText? text)

end Snapshot

end Statechart
