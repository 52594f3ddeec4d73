import Statechart.Chart.Basic
import Statechart.Path

/-!
# Laying out a definition

The first step from a definition to a chart: one slot for each state, in document order,
with its place in the tree, and the table of the names that states go by. A state goes by
its dotted path of keys and by its declared id; a name that is taken keeps its first owner.

Targets are resolved in a layout. `#` begins an absolute target: a name, or a name with the
keys leading down from there behind a dot. `.` begins a target below the source. Any other
target is the keys leading down from the source's parent.
-/
namespace Statechart

namespace Definition

mutual

def size : Definition → Nat
  | ⟨_, _, _, _, _, _, states, _, _, _, _, _, _, _⟩ => sizeAll states + 1

def sizeAll : List Definition → Nat
  | [] => 0
  | d :: rest => size d + sizeAll rest

end

end Definition

structure Slot where
  definition : Definition
  /-- The dotted path of keys from the root. -/
  path : String
  parent : Option Nat
  children : List Nat
  depth : Nat
  stop : Nat
deriving Repr, Inhabited

namespace Slot

/-- The declared id, or else the path. -/
def id (s : Slot) : String := s.definition.id.getD s.path

def key (s : Slot) : String := s.definition.key

def kind (s : Slot) : Kind := s.definition.resolvedKind

/-- The names that the state goes by. -/
def names (s : Slot) : List String :=
  s.path :: (s.definition.id.filter (· ≠ s.path)).toList

end Slot

/-- The numbers of the roots of a list of definitions laid out one after the other. -/
def startsFrom : Nat → List Definition → List Nat
  | _, [] => []
  | start, d :: rest => start :: startsFrom (start + d.size) rest

mutual

/-- The slots of a definition whose root has the number `start`. -/
def slotsFrom (parent : Option Nat) (path : String) (depth start : Nat) : Definition → List Slot
  | d@⟨_, _, _, _, _, _, states, _, _, _, _, _, _, _⟩ =>
    { definition := d, path, parent, children := startsFrom (start + 1) states, depth,
      stop := start + Definition.sizeAll states + 1 }
      :: slotsFromAll start path (depth + 1) (start + 1) states

/-- The slots of the children of one state, the first of which has the number `start`. -/
def slotsFromAll (parent : Nat) (path : String) (depth start : Nat) : List Definition → List Slot
  | [] => []
  | d :: rest =>
    slotsFrom (some parent) (path ++ "." ++ d.key) depth start d
      ++ slotsFromAll parent path depth (start + d.size) rest

end

/-- The slots of a definition and the names that they go by. -/
structure Layout where
  slots : Array Slot
  ids : Dict Nat
deriving Repr

namespace Layout

/-- The names of a list of slots, each with the number of its slot, counted from `start`. -/
def namesFrom : Nat → List Slot → List (String × Nat)
  | _, [] => []
  | start, s :: rest => s.names.map (·, start) ++ namesFrom (start + 1) rest

/-- The table of names; the first owner of a name keeps it. -/
def register (names : List (String × Nat)) : Dict Nat :=
  names.foldl (fun ids e => if ids.contains e.1 then ids else ids.insert e.1 e.2) []

def ofDefinition (d : Definition) : Layout :=
  let slots := slotsFrom none d.key 0 0 d
  { slots := slots.toArray, ids := register (namesFrom 0 slots) }

def slot (l : Layout) (n : Nat) : Slot := l.slots.getD n default

/-! ## Targets -/

/-- The first child of that key. -/
def child? (l : Layout) (n : Nat) (key : String) : Option Nat :=
  (l.slot n).children.find? fun k => (l.slot k).key == key

/-- The state that a list of keys leads down to. -/
def descend (l : Layout) (n : Nat) : List String → Option Nat
  | [] => some n
  | key :: keys => do descend l (← l.child? n key) keys

/-- The state that an absolute target means, given without its number sign. -/
def absolute? (l : Layout) (target : List Char) : Option Nat :=
  match l.ids.get? (String.ofList target) with
  | some n => some n
  | none => do
    let (name, path) ← Path.splitFirst target
    l.descend (← l.ids.get? (String.ofList name)) (Path.segments path)

/-- The state that a target text means for a source. -/
def target? (l : Layout) (source : Nat) (target : String) : Option Nat :=
  match target.toList with
  | '#' :: rest => l.absolute? rest
  | '.' :: rest => l.descend source (Path.segments rest)
  | cs => l.descend ((l.slot source).parent.getD source) (Path.segments cs)

/-- The states that a list of targets means, those without meaning left out. -/
def targets (l : Layout) (source : Nat) (targets : List String) : List Nat :=
  targets.filterMap (l.target? source)

end Layout

end Statechart
