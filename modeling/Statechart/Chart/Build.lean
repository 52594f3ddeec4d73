import Statechart.Chart.Layout
import Statechart.Definition.Problem

/-!
# From definitions to charts

`Chart.build` lays a definition out and resolves every name in it, or refuses it with all
its problems. The problems come in three rounds, each in document order: names that are
taken, then what is wrong with the tree, then what is wrong with transitions, actions and
invocations. A definition is accepted exactly when there are none.
-/
namespace Statechart

/-- Which guards, actions and actor sources there are. -/
structure Names where
  guard : String → Bool
  action : String → Bool
  actor : String → Bool

/-- The members of a list that stand in it, or in `seen`, before. -/
def repeated (seen : List String) : List String → List String
  | [] => []
  | x :: rest => if x ∈ seen then x :: repeated seen rest else repeated (x :: seen) rest

namespace Slot

/-- The transitions declared for each event type: those of the handlers, those for the
completion of the state and those of the delays. -/
def groups (s : Slot) : List (String × List TransitionDef) :=
  s.definition.on.map (fun h => (h.event, h.transitions))
    ++ (if s.definition.onDone.isEmpty then []
        else [((Event.doneState s.id).type, s.definition.onDone)])
    ++ s.definition.after.map (fun d => (Event.afterType d.delayMs s.id, d.transitions))

/-- All transitions of the state in the order of their numbers, each with its event type. -/
def declared (s : Slot) : List (Option String × TransitionDef) :=
  s.groups.flatMap (fun g => g.2.map (some g.1, ·)) ++ s.definition.always.map (none, ·)

/-- The events that the delays of the state deliver. -/
def delayed (s : Slot) : List Delayed :=
  s.definition.after.map fun d => ⟨d.delayMs, Event.afterType d.delayMs s.id⟩

/-- Invocations numbered from `n`; one without an id is called after the state and its number. -/
def invocationsFrom (id : String) : Nat → List InvocationDef → List Invocation
  | _, [] => []
  | n, i :: rest =>
    ⟨i.id.getD (id ++ s!":invocation[{n}]"), i.src⟩ :: invocationsFrom id (n + 1) rest

def invocations (s : Slot) : List Invocation := invocationsFrom s.id 0 s.definition.invoke

end Slot

namespace Layout

/-! ## Problems -/

def targetProblems (l : Layout) (source : Nat) (targets : List String) : List Problem :=
  (targets.filter fun t => (l.target? source t).isNone).map (.unresolvedTarget (l.slot source).id)

def initialProblems (l : Layout) (n : Nat) : List Problem :=
  let s := l.slot n
  (if s.children.isEmpty then [.emptyCompound s.id] else [])
    ++ match s.definition.initial with
      | none => []
      | some key => if (l.child? n key).isNone then [.invalidInitial s.id key] else []

def historyProblems (l : Layout) (n : Nat) : List Problem :=
  let s := l.slot n
  (match s.parent.map fun p => (l.slot p).kind with
    | some .compound | some .parallel => []
    | _ => [.orphanHistory s.id])
    ++ l.targetProblems n s.definition.target

def structureProblems (l : Layout) (n : Nat) : List Problem :=
  let s := l.slot n
  let children :=
    if s.definition.states.isEmpty then [] else [Problem.unexpectedChildren s.id s.kind]
  match s.kind with
  | .atomic | .final => children
  | .history => children ++ l.historyProblems n
  | .compound => l.initialProblems n
  | .parallel => []

def actionProblems (names : Names) (state : String) (actions : List Action) : List Problem :=
  actions.filterMap fun
    | .named name => if names.action name then none else some (.unknownAction state name)
    | _ => none

def transitionProblems (l : Layout) (names : Names) (source : Nat) (t : TransitionDef) :
    List Problem :=
  let state := (l.slot source).id
  (match t.guard with
    | none => []
    | some guard => if names.guard guard then [] else [.unknownGuard state guard])
    ++ l.targetProblems source t.target
    ++ actionProblems names state t.actions

/-- What is wrong with invocations; `seen` are the ids of the ones before them. -/
def invocationProblems (names : Names) (state : String) (seen : List String) :
    List Invocation → List Problem
  | [] => []
  | i :: rest =>
    (if i.id ∈ seen then [.duplicateInvocation i.id] else [])
      ++ (if names.actor i.src then [] else [.unknownActor state i.src])
      ++ invocationProblems names state (i.id :: seen) rest

/-- What is wrong with a state's behaviour; `seen` are the ids of the invocations before it. -/
def behaviourProblems (l : Layout) (names : Names) (seen : List String) (n : Nat) : List Problem :=
  let s := l.slot n
  actionProblems names s.id s.definition.entry
    ++ actionProblems names s.id s.definition.exit
    ++ s.declared.flatMap (fun t => l.transitionProblems names n t.2)
    ++ invocationProblems names s.id seen s.invocations

/-- The problems of the behaviour of `slots`, which have the numbers from `n`. -/
def behaviourProblemsFrom (l : Layout) (names : Names) (seen : List String) (n : Nat) :
    List Slot → List Problem
  | [] => []
  | s :: rest =>
    l.behaviourProblems names seen n
      ++ behaviourProblemsFrom l names (s.invocations.map Invocation.id ++ seen) (n + 1) rest

/-- All problems, in the order they are reported. -/
def problems (l : Layout) (names : Names) : List Problem :=
  (repeated [] (l.slots.toList.flatMap Slot.names)).map .duplicateId
    ++ (List.range l.slots.size).flatMap l.structureProblems
    ++ l.behaviourProblemsFrom names [] 0 l.slots.toList

/-! ## Nodes and transitions -/

/-- The child that a state enters by default: the named one, or else the first that is not a
history state. -/
def initial (l : Layout) (n : Nat) : Option Nat :=
  let s := l.slot n
  match s.kind with
  | .compound =>
    match s.definition.initial with
    | some key => l.child? n key
    | none => s.children.find? fun k => (l.slot k).kind != .history
  | _ => none

def transition (l : Layout) (source : Nat) (event : Option String) (t : TransitionDef) :
    Transition where
  source
  event
  guard := t.guard
  actions := t.actions
  targets := l.targets source t.target
  reenter := t.reenter

/-- Puts transitions behind those of their event type; the first of a type opens its entry. -/
def join (event : String) (ts : List Nat) : List (String × List Nat) → List (String × List Nat)
  | [] => [(event, ts)]
  | e :: rest => if e.1 = event then (e.1, e.2 ++ ts) :: rest else e :: join event ts rest

/-- The numbers of grouped transitions, counted from `first`. -/
def numbered (first : Nat) : List (String × List TransitionDef) → List (String × List Nat)
  | [] => []
  | g :: rest => (g.1, List.range' first g.2.length) :: numbered (first + g.2.length) rest

/-- The table of a state's transitions by event type. -/
def table (groups : List (String × List Nat)) : List (String × List Nat) :=
  groups.foldl (fun t g => join g.1 g.2 t) []

/-- The state of a slot whose transitions are numbered from `first`. -/
def node (l : Layout) (n first : Nat) : Node :=
  let s := l.slot n
  let d := s.definition
  let isHistory := s.kind == .history
  { id := s.id
    key := s.key
    kind := s.kind
    parent := s.parent
    children := s.children
    initial := l.initial n
    history := if isHistory then some (d.history.getD .shallow) else none
    historyTarget := if isHistory then l.targets n d.target else []
    entry := d.entry
    exit := d.exit
    on := table (numbered first s.groups)
    always := List.range' (first + (s.groups.flatMap Prod.snd).length) d.always.length
    after := s.delayed
    invoke := s.invocations
    depth := s.depth
    stop := s.stop }

/-- The states of `slots`, which have the numbers from `n` and whose transitions are
numbered from `first`. -/
def nodesFrom (l : Layout) (n first : Nat) : List Slot → List Node
  | [] => []
  | s :: rest => l.node n first :: nodesFrom l (n + 1) (first + s.declared.length) rest

/-- The transitions of `slots`, which have the numbers from `n`. -/
def transitionsFrom (l : Layout) (n : Nat) : List Slot → List Transition
  | [] => []
  | s :: rest => s.declared.map (fun t => l.transition n t.1 t.2) ++ transitionsFrom l (n + 1) rest

/-- The chart of a layout; it is of use only if the layout has no problems. -/
def chart (l : Layout) : Chart where
  nodes := (l.nodesFrom 0 0 l.slots.toList).toArray
  transitions := (l.transitionsFrom 0 l.slots.toList).toArray
  ids := l.ids

end Layout

/-- The chart of a definition, or all that is wrong with it. -/
def Chart.build (names : Names) (d : Definition) : Except (List Problem) Chart :=
  let l := Layout.ofDefinition d
  let problems := l.problems names
  if problems.isEmpty then .ok l.chart else .error problems

end Statechart
