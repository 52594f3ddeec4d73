import Statechart.Event

/-!
# Definitions

A definition is plain data: one state with its subtree, its handlers and its default target.
It refers to guards, actions and actor sources by name, and to other states by target texts
that are resolved when a chart is laid out.
-/
namespace Statechart

inductive Kind where
  | atomic
  | compound
  | parallel
  | final
  | history
deriving DecidableEq, Repr, Inhabited

namespace Kind

def word : Kind → String
  | .atomic => "atomic"
  | .compound => "compound"
  | .parallel => "parallel"
  | .final => "final"
  | .history => "history"

def ofWord? : String → Option Kind
  | "atomic" => some .atomic
  | "compound" => some .compound
  | "parallel" => some .parallel
  | "final" => some .final
  | "history" => some .history
  | _ => none

/-- Atomic and final states are the leaves of a configuration. -/
def isLeaf : Kind → Bool
  | .atomic | .final => true
  | _ => false

theorem ofWord?_word (k : Kind) : ofWord? k.word = some k := by cases k <;> rfl

end Kind

/-- How much of what was active a history state remembers: its siblings, or all leaves below
its parent. -/
inductive HistoryMode where
  | shallow
  | deep
deriving DecidableEq, Repr, Inhabited

namespace HistoryMode

def word : HistoryMode → String
  | .shallow => "shallow"
  | .deep => "deep"

def ofWord? : String → Option HistoryMode
  | "shallow" => some .shallow
  | "deep" => some .deep
  | _ => none

theorem ofWord?_word (m : HistoryMode) : ofWord? m.word = some m := by cases m <;> rfl

end HistoryMode

/-- One thing to do on a transition, an entry or an exit. -/
inductive Action where
  /-- Run the registered action of that name. -/
  | named (name : String)
  /-- Put an event on the internal queue of the macrostep. -/
  | raise (event : Event)
  /-- Send an event to an invoked actor. -/
  | sendTo (actor : String) (event : Event)
deriving DecidableEq, Repr, Inhabited

/-- What a snapshot's list of executed actions says of an action. -/
def Action.label : Action → String
  | .named name => name
  | .raise event => "raise(" ++ event.type ++ ")"
  | .sendTo actor event => "send_to(" ++ actor ++ ", " ++ event.type ++ ")"

structure TransitionDef where
  /-- Target texts; without any the transition only runs its actions. -/
  target : List String := []
  guard : Option String := none
  actions : List Action := []
  /-- Leave and enter the source again even if every target is inside it. -/
  reenter : Bool := false
deriving DecidableEq, Repr, Inhabited

/-- The transitions declared for one event type, tried in order. -/
structure Handler where
  event : String
  transitions : List TransitionDef
deriving DecidableEq, Repr, Inhabited

/-- The transitions declared for a time after entry, in milliseconds, tried in order. -/
structure Delay where
  delayMs : Nat
  transitions : List TransitionDef
deriving DecidableEq, Repr, Inhabited

structure InvocationDef where
  id : Option String := none
  src : String
deriving DecidableEq, Repr, Inhabited

/-- A state and its subtree. -/
structure Definition where
  key : String
  id : Option String := none
  kind : Option Kind := none
  initial : Option String := none
  history : Option HistoryMode := none
  /-- Default targets of a history state. -/
  target : List String := []
  states : List Definition := []
  on : List Handler := []
  always : List TransitionDef := []
  after : List Delay := []
  onDone : List TransitionDef := []
  entry : List Action := []
  exit : List Action := []
  invoke : List InvocationDef := []
deriving Repr, Inhabited

namespace Definition

/-- The kind of the state: the declared one, or else what its other fields make of it. -/
def resolvedKind (d : Definition) : Kind :=
  match d.kind with
  | some kind => kind
  | none => if d.history.isSome then .history else if d.states.isEmpty then .atomic else .compound

mutual

/-- Equality of definitions is decided field by field. -/
def decEq : (a b : Definition) → Decidable (a = b)
  | ⟨key, id, kind, initial, history, target, states, on, always, after, onDone, entry, exit,
      invoke⟩,
    ⟨key', id', kind', initial', history', target', states', on', always', after', onDone',
      entry', exit', invoke'⟩ =>
    have := decEqAll states states'
    decidable_of_iff
      (key = key' ∧ id = id' ∧ kind = kind' ∧ initial = initial' ∧ history = history' ∧
        target = target' ∧ states = states' ∧ on = on' ∧ always = always' ∧ after = after' ∧
        onDone = onDone' ∧ entry = entry' ∧ exit = exit' ∧ invoke = invoke')
      (by simp)

def decEqAll : (a b : List Definition) → Decidable (a = b)
  | [], [] => .isTrue rfl
  | [], _ :: _ | _ :: _, [] => .isFalse (by simp)
  | x :: xs, y :: ys =>
    have := decEq x y
    have := decEqAll xs ys
    decidable_of_iff (x = y ∧ xs = ys) (by simp)

end

instance : DecidableEq Definition := decEq

end Definition

end Statechart
