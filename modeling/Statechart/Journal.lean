import Statechart.StateValue
import Statechart.Timestamp.Text

/-!
# Journals

A journal lists the macrosteps that made a difference, the oldest first. One with a limit
keeps the newest steps only, and one with limit zero none.
-/
namespace Statechart

structure StepRecord where
  /-- The type of the event that was worked off. -/
  event : String
  before : StateValue
  after : StateValue
  timestamp : Timestamp
  microsteps : Nat
deriving DecidableEq, Repr

/-- Macrosteps in the order they were taken. -/
structure Journal where
  steps : List StepRecord := []
  /-- How many steps are kept; all of them if there is no limit. -/
  limit : Option Nat := none
deriving DecidableEq, Repr, Inhabited

namespace Journal

/-- An empty journal that keeps so many steps. -/
def withLimit (limit : Nat) : Journal := { limit := some limit }

/-- Adds a step at the end, and drops the oldest ones that are too many then. -/
def push (j : Journal) (step : StepRecord) : Journal :=
  match j.limit with
  | none => { j with steps := j.steps ++ [step] }
  | some 0 => j
  | some (n + 1) => { j with steps := j.steps.drop (j.steps.length - n) ++ [step] }

/-- The values gone through: the one before the first step, then the one after each step. -/
def path (j : Journal) : List StateValue :=
  (j.steps.head?.map StepRecord.before).toList ++ j.steps.map StepRecord.after

/-- The microseconds from the first step to the last, if there are steps and the last is not
the earlier one. -/
def durationMicros? (j : Journal) : Option Nat := do
  (← j.steps.head?).timestamp.microsUntil? (← j.steps.getLast?).timestamp

def size (j : Journal) : Nat := j.steps.length

end Journal

/-! ## Written form -/

namespace StepRecord

def toJson (s : StepRecord) : Json :=
  .object [
    ("event", .str s.event),
    ("from", s.before.toJson),
    ("to", s.after.toJson),
    ("timestamp", .str s.timestamp.text),
    ("microsteps", .ofNat s.microsteps)]

def read : Nat → Draft → Option StepRecord
  | 0, _ => none
  | room + 1, d => do
    let fields ← d.fields? ["event", "from", "to", "timestamp", "microsteps"]
    return {
      event := ← fields.required "event" Draft.text?
      before := ← fields.required "from" (StateValue.read room)
      after := ← fields.required "to" (StateValue.read room)
      timestamp := ← fields.required "timestamp" fun d => do Timestamp.ofText? (← d.text?)
      microsteps := ← fields.required "microsteps" Draft.nat? }

end StepRecord

namespace Journal

/-- The written form of a journal; a missing limit is left out. -/
def toJson (j : Journal) : Json :=
  .object (("steps", .arr (j.steps.map StepRecord.toJson))
    :: (j.limit.map fun n => ("limit", Json.ofNat n)).toList)

def read : Nat → Draft → Option Journal
  | 0, _ => none
  | room + 1, d => do
    let fields ← d.fields? ["steps", "limit"]
    return {
      steps := ← fields.required "steps" (Draft.list? StepRecord.read room)
      limit := ← fields.optional "limit" Draft.nat? }

def ofText? (text : String) : Option Journal := do
  read Draft.maxDepth (← Draft.ofText? text)

end Journal

end Statechart
