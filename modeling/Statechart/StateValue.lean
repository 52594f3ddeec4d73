import Statechart.Chart.Basic
import Statechart.Path

/-!
# State values

The value of a snapshot shows its configuration as nested keys. A compound state whose
active child is a leaf shows as that child's key; one whose active child has an inside shows
as a map with the one entry for that child; a parallel state shows as a map with an entry
for each active region, leaves being empty maps.

`matches?` asks whether a dotted path of keys is active; segments without characters are
passed over.
-/
namespace Statechart

/-- Nested keys. -/
inductive StateValue where
  | leaf (key : String)
  | branch (children : List (String × StateValue))
deriving Repr, Inhabited

namespace StateValue

mutual

/-- Equality of state values is decided part by part. -/
def decEq : (a b : StateValue) → Decidable (a = b)
  | .leaf a, .leaf b => decidable_of_iff (a = b) (by simp)
  | .branch a, .branch b => have := decEqAll a b; decidable_of_iff (a = b) (by simp)
  | .leaf _, .branch _ | .branch _, .leaf _ => .isFalse (by simp)

/-- Equality of branches, entry by entry. -/
def decEqAll : (a b : List (String × StateValue)) → Decidable (a = b)
  | [], [] => .isTrue rfl
  | [], _ :: _ | _ :: _, [] => .isFalse (by simp)
  | (k, x) :: xs, (l, y) :: ys =>
    have := decEq x y
    have := decEqAll xs ys
    decidable_of_iff (k = l ∧ x = y ∧ xs = ys) (by simp [and_assoc])

end

instance : DecidableEq StateValue := decEq

/-- The value of a state in a configuration, looking at most so many levels down. -/
def ofConfigurationWithin (c : Chart) (configuration : NodeSet) : Nat → Nat → StateValue
  | 0, _ => .branch []
  | levels + 1, n =>
    let active := c.activeChildren n configuration
    if (c.node n).isParallel then
      .branch (Dict.ofList (active.map fun k =>
        ((c.node k).key,
          if (c.node k).isLeaf then .branch []
          else ofConfigurationWithin c configuration levels k)))
    else
      match active with
      | [] => .branch []
      | k :: _ =>
        if (c.node k).isLeaf then .leaf (c.node k).key
        else .branch [((c.node k).key, ofConfigurationWithin c configuration levels k)]

def ofConfiguration (c : Chart) (n : Nat) (configuration : NodeSet) : StateValue :=
  ofConfigurationWithin c configuration (c.size + 1) n

/-- Whether a row of keys is active. -/
def hasKeys : List String → StateValue → Bool
  | [], _ => true
  | key :: rest, .leaf k => rest.isEmpty && k == key
  | key :: rest, .branch children =>
    match Dict.get? children key with
    | some child => hasKeys rest child
    | none => false

/-- Whether a dotted path of keys is active. -/
def matches? (v : StateValue) (path : String) : Bool :=
  v.hasKeys ((Path.segments path.toList).filter (· ≠ ""))

/-! ## Written form -/

mutual

def toJson : StateValue → Json
  | .leaf key => .str key
  | .branch children => .obj (toJsonAll children)

def toJsonAll : List (String × StateValue) → List (String × Json)
  | [] => []
  | (key, child) :: rest => (key, toJson child) :: toJsonAll rest

end

def render (v : StateValue) : String := v.toJson.render

/-- Reads a state value; of two entries of one key the later counts. -/
def read : Nat → Draft → Option StateValue
  | _, .str (some key) => some (.leaf key)
  | room + 1, .obj fields => do
    let entries ← fields.mapM fun (name, d) => do return (← name, ← read room d)
    return .branch (Dict.ofList entries)
  | _, _ => none

def ofJson? (j : Json) : Option StateValue := read Draft.maxDepth (.ofJson j)

def ofText? (text : String) : Option StateValue := do
  read Draft.maxDepth (← Draft.ofText? text)

end StateValue

end Statechart
