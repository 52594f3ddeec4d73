import Statechart.Definition.Basic

/-!
# The written form of definitions

A definition is a JSON object of its fields, written in ascending order of their names
(`Json.object`) and read in any order; fields without content are left out, fields that are
not known are passed over. An action is a text, or an object that raises an event, or one that
sends an event to an actor: the first of these forms that fits counts. `ofJson?` reads what
`toJson` writes; so does `ofText?` with the text that `render` writes, but for the last digits
of floats in payloads (`Binary64.ofScaled`).
-/
namespace Statechart

/-- An object of the fields that have content. -/
def Json.record (fields : List (String × Option Json)) : Json :=
  .object (fields.filterMap fun (name, value) => value.map (name, ·))

/-- A list as a field that is left out when the list is empty. -/
def Json.listField {α : Type} (toJson : α → Json) (l : List α) : Option Json :=
  if l.isEmpty then none else some (.arr (l.map toJson))

namespace Action

def toJson : Action → Json
  | .named name => .str name
  | .raise event => .object [("raise", event.toJson)]
  | .sendTo actor event => .object [("send_to", .str actor), ("event", event.toJson)]

/-- The one value of a field that is written exactly once. -/
def single? (name : String) (fields : List (Option String × Draft)) : Option Draft :=
  match fields.filter fun e => e.1 == some name with
  | [(_, d)] => some d
  | _ => none

/-- Reads an action. The whole of it must have a value, whichever form it takes. -/
def read (room : Nat) (d : Draft) : Option Action := do
  let _ ← d.value? room
  match d, room with
  | .str (some name), _ => some (.named name)
  | .obj fields, room + 1 =>
    let raised := do
      return Action.raise (← Event.read room (← single? "raise" fields))
    let sent := do
      return Action.sendTo (← (← single? "send_to" fields).text?)
        (← Event.read room (← single? "event" fields))
    raised <|> sent
  | _, _ => none

end Action

namespace TransitionDef

def toJson (t : TransitionDef) : Json :=
  .record [
    ("target", Json.listField .str t.target),
    ("guard", t.guard.map .str),
    ("actions", Json.listField Action.toJson t.actions),
    ("reenter", some (.bool t.reenter))]

def read : Nat → Draft → Option TransitionDef
  | 0, _ => none
  | room + 1, d => do
    let fields ← d.fields? ["target", "guard", "actions", "reenter"]
    return {
      target := ← fields.withDefault "target" [] (Draft.list? (fun _ => Draft.text?) room)
      guard := ← fields.optional "guard" Draft.text?
      actions := ← fields.withDefault "actions" [] (Draft.list? Action.read room)
      reenter := ← fields.withDefault "reenter" false Draft.bool? }

end TransitionDef

namespace Handler

def toJson (h : Handler) : Json :=
  .object [("event", .str h.event), ("transitions", .arr (h.transitions.map TransitionDef.toJson))]

def read : Nat → Draft → Option Handler
  | 0, _ => none
  | room + 1, d => do
    let fields ← d.fields? ["event", "transitions"]
    return {
      event := ← fields.required "event" Draft.text?
      transitions := ← fields.required "transitions" (Draft.list? TransitionDef.read room) }

end Handler

namespace Delay

def toJson (d : Delay) : Json :=
  .object [
    ("delay_ms", .ofNat d.delayMs),
    ("transitions", .arr (d.transitions.map TransitionDef.toJson))]

def read : Nat → Draft → Option Delay
  | 0, _ => none
  | room + 1, d => do
    let fields ← d.fields? ["delay_ms", "transitions"]
    return {
      delayMs := ← fields.required "delay_ms" Draft.nat?
      transitions := ← fields.required "transitions" (Draft.list? TransitionDef.read room) }

end Delay

namespace InvocationDef

def toJson (i : InvocationDef) : Json :=
  .record [("id", i.id.map .str), ("src", some (.str i.src))]

def read : Nat → Draft → Option InvocationDef
  | 0, _ => none
  | _ + 1, d => do
    let fields ← d.fields? ["id", "src"]
    return { id := ← fields.optional "id" Draft.text?, src := ← fields.required "src" Draft.text? }

end InvocationDef

namespace Definition

mutual

def toJson : Definition → Json
  | ⟨key, id, kind, initial, history, target, states, on, always, after, onDone, entry, exit,
      invoke⟩ =>
    .record [
      ("key", some (.str key)),
      ("id", id.map .str),
      ("type", kind.map (.str ·.word)),
      ("initial", initial.map .str),
      ("history", history.map (.str ·.word)),
      ("target", Json.listField .str target),
      ("states", if states.isEmpty then none else some (.arr (toJsonAll states))),
      ("on", Json.listField Handler.toJson on),
      ("always", Json.listField TransitionDef.toJson always),
      ("after", Json.listField Delay.toJson after),
      ("on_done", Json.listField TransitionDef.toJson onDone),
      ("entry", Json.listField Action.toJson entry),
      ("exit", Json.listField Action.toJson exit),
      ("invoke", Json.listField InvocationDef.toJson invoke)]

def toJsonAll : List Definition → List Json
  | [] => []
  | d :: rest => toJson d :: toJsonAll rest

end

def render (d : Definition) : String := d.toJson.render

def fieldNames : List String :=
  ["key", "id", "type", "initial", "history", "target", "states", "on", "always", "after",
    "on_done", "entry", "exit", "invoke"]

/-- Reads a definition whose list of child states is read by `readStates`; `room` is what is
left inside the record. -/
def readRecord (room : Nat) (readStates : Draft → Option (List Definition)) (d : Draft) :
    Option Definition := do
  let fields ← d.fields? fieldNames
  return {
    key := ← fields.required "key" Draft.text?
    id := ← fields.optional "id" Draft.text?
    kind := ← fields.optional "type" (Draft.word? Kind.ofWord? room)
    initial := ← fields.optional "initial" Draft.text?
    history := ← fields.optional "history" (Draft.word? HistoryMode.ofWord? room)
    target := ← fields.withDefault "target" [] (Draft.list? (fun _ => Draft.text?) room)
    states := ← fields.withDefault "states" [] readStates
    on := ← fields.withDefault "on" [] (Draft.list? Handler.read room)
    always := ← fields.withDefault "always" [] (Draft.list? TransitionDef.read room)
    after := ← fields.withDefault "after" [] (Draft.list? Delay.read room)
    onDone := ← fields.withDefault "on_done" [] (Draft.list? TransitionDef.read room)
    entry := ← fields.withDefault "entry" [] (Draft.list? Action.read room)
    exit := ← fields.withDefault "exit" [] (Draft.list? Action.read room)
    invoke := ← fields.withDefault "invoke" [] (Draft.list? InvocationDef.read room) }

def read : Nat → Draft → Option Definition
  | 0, _ => none
  | 1, d => readRecord 0 (fun _ => none) d
  | room + 2, d =>
    readRecord (room + 1)
      (fun | .arr items => items.mapM (read room) | _ => none)
      d

def ofJson? (j : Json) : Option Definition := read Draft.maxDepth (.ofJson j)

def ofText? (text : String) : Option Definition := do
  read Draft.maxDepth (← Draft.ofText? text)

end Definition

end Statechart
