import Statechart.Json.Draft

/-!
# Reading values and records out of a draft

What is read must have a value and may nest at most `maxDepth` arrays and objects, counted
from the outside of the whole text. A reader is told its `room`: how many more may be open
around what it reads.

A record is written as an object (fields that it does not know are passed over, a field that
it knows may stand there once) or as the array of its fields in their order, the last ones
left out at will.
-/
namespace Statechart

namespace Draft

def maxDepth : Nat := 127

mutual

def ofJson : Json → Draft
  | .null => .null
  | .bool b => .bool b
  | .num n => .num (some n)
  | .str s => .str (some s)
  | .arr items => .arr (ofItems items)
  | .obj fields => .obj (ofFields fields)

def ofItems : List Json → List Draft
  | [] => []
  | x :: rest => ofJson x :: ofItems rest

def ofFields : List (String × Json) → List (Option String × Draft)
  | [] => []
  | (name, x) :: rest => (some name, ofJson x) :: ofFields rest

end

/-- The value of a draft without parts. -/
def scalar? : Draft → Option Json
  | .null => some .null
  | .bool b => some (.bool b)
  | .num n => n.map .num
  | .str s => s.map .str
  | .arr _ | .obj _ => none

/-- The value of a draft; of two fields of one name the later counts. -/
def value? : Nat → Draft → Option Json
  | room + 1, .arr items => (items.mapM (value? room)).map .arr
  | room + 1, .obj fields => do
    let fields ← fields.mapM fun (name, d) => do return (← name, ← value? room d)
    return .object fields
  | _, d => d.scalar?

def text? : Draft → Option String
  | .str s => s
  | _ => none

def bool? : Draft → Option Bool
  | .bool b => some b
  | _ => none

/-- The natural number of a draft, of 64 bits. -/
def nat? : Draft → Option Nat
  | .num (some (.int i)) => if 0 ≤ i then some i.toNat else none
  | _ => none

/-- The items of an array, each read by `read` with one less room. -/
def list? {α : Type} (read : Nat → Draft → Option α) : Nat → Draft → Option (List α)
  | room + 1, .arr items => items.mapM (read room)
  | _, _ => none

/-- The entries of an object as a map; of two entries of one name the later counts. -/
def dict? {α : Type} (read : Nat → Draft → Option α) : Nat → Draft → Option (Dict α)
  | room + 1, .obj fields => do
    let entries ← fields.mapM fun (name, d) => do return (← name, ← read room d)
    return Dict.ofList entries
  | _, _ => none

/-- A word out of a fixed list; it may also be written as an object whose one field, null,
it names. -/
def word? {α : Type} (ofWord? : String → Option α) : Nat → Draft → Option α
  | _ + 1, .obj [(some name, .null)] => ofWord? name
  | _, .str (some name) => ofWord? name
  | _, _ => none

/-! ## Records -/

/-- The fields of a record that were written down. -/
abbrev Fields := List (String × Draft)

/-- The fields of a record with the given field names. -/
def fields? (names : List String) : Draft → Option Fields
  | .obj fields => do
    let fields ← fields.mapM fun (name, d) => do return (← name, d)
    let known := fields.filter fun e => names.contains e.1
    if (known.map Prod.fst).Nodup then some known else none
  | .arr items => if items.length ≤ names.length then some (names.zip items) else none
  | _ => none

/-- A field that must be written down. -/
def Fields.required {α : Type} (fields : Fields) (name : String) (read : Draft → Option α) :
    Option α := do
  read (← fields.lookup name)

def Fields.withDefault {α : Type} (fields : Fields) (name : String) (default : α)
    (read : Draft → Option α) : Option α :=
  match fields.lookup name with
  | none => some default
  | some d => read d

/-- A field that may be absent or null. -/
def Fields.optional {α : Type} (fields : Fields) (name : String) (read : Draft → Option α) :
    Option (Option α) :=
  match fields.lookup name with
  | none | some .null => some none
  | some d => (read d).map some

end Draft

namespace Json

def ofText? (text : String) : Option Json := do
  (← Draft.ofText? text).value? Draft.maxDepth

end Json

end Statechart
