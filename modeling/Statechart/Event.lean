import Statechart.Json.Decode
import Statechart.Json.Render

/-!
# Events

An event is a type and a payload, a JSON object of any shape. External events, raised
events, fired timers and the posts of actors all have this one form, so that guards and
actions cannot tell them apart; a post names the actor that it came from.
-/
namespace Statechart

/-- What a machine reacts to. -/
structure Event where
  type : String
  /-- The fields of the payload. -/
  payload : Dict Json := []
  /-- The invocation whose actor posted the event, if one did. -/
  origin : Option String := none
deriving DecidableEq, Repr, Inhabited

namespace Event

/-- Whether two events are the same; their payloads are compared as values. -/
def same (a b : Event) : Bool :=
  a.type == b.type && Json.sameFields a.payload b.payload && a.origin == b.origin

instance : BEq Event := ⟨same⟩

theorem same_self (e : Event) : e.same e = true := by simp [same, Json.sameFields_self]

instance : ReflBEq Event := ⟨same_self _⟩

/-- The type of the event that produces the initial snapshot. -/
def initType : String := "statecraft.init"

/-- The type of the event that the last snapshot of a stopped machine names. -/
def stopType : String := "statecraft.stop"

/-- What the types of completion events begin with. -/
def doneStem : String := "done.state."

/-- The event that produces the initial snapshot. -/
def init : Event := { type := initType }

/-- The event of stopping. -/
def stop : Event := { type := stopType }

/-- The event that announces that a state has completed. -/
def doneState (id : String) : Event := { type := doneStem ++ id }

/-- The type of the event that a state's delay delivers. -/
def afterType (delay : Nat) (id : String) : String := s!"after({delay})#" ++ id

def isDone (e : Event) : Bool := doneStem.toList.isPrefixOf e.type.toList

def set (e : Event) (name : String) (value : Json) : Event :=
  { e with payload := e.payload.insert name value }

def ofOrigin (e : Event) (id : String) : Event := { e with origin := some id }

def get? (e : Event) (name : String) : Option Json := e.payload.get? name

def int64? (e : Event) (name : String) : Option Int := (e.get? name).bind Json.int64?

def bool? (e : Event) (name : String) : Option Bool := (e.get? name).bind Json.bool?

def str? (e : Event) (name : String) : Option String := (e.get? name).bind Json.str?

/-! ## Written form -/

/-- An empty payload and a missing origin are left out. -/
def toJson (e : Event) : Json :=
  .object (("type", .str e.type)
    :: (if e.payload.isEmpty then [] else [("payload", .obj e.payload)])
    ++ (e.origin.map fun id => ("origin", Json.str id)).toList)

def read : Nat → Draft → Option Event
  | 0, _ => none
  | room + 1, d => do
    let fields ← d.fields? ["type", "payload", "origin"]
    return {
      type := ← fields.required "type" Draft.text?
      payload := ← fields.withDefault "payload" [] (Draft.dict? Draft.value? room)
      origin := ← fields.optional "origin" Draft.text? }

def ofJson? (j : Json) : Option Event := read Draft.maxDepth (.ofJson j)

def ofText? (text : String) : Option Event := do
  read Draft.maxDepth (← Draft.ofText? text)

end Event

end Statechart
