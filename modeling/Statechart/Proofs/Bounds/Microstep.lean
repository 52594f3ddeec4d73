import Statechart.Proofs.Bounds.Entry
import Statechart.Proofs.Execution

/-!
# Microsteps, number by number

The microsteps of an execution, with every state and transition looked up that they need. An
execution in which the active states and those that are remembered belong to the chart
(`Execution.InChart`) stays such, and comes to what it comes to without looking up.

* `exitStates?_gives`, `enterStates?_gives`: the two halves of a microstep.
* `microstep?_gives`, `enterInitial?_gives`, `exitAll?_gives`: whole microsteps.
-/
namespace Statechart

open Lookup

variable {C E A : Type} {c : Chart} {r : Registry C E A} {mode : Mode} {event : Event}

namespace Command

def onEntering? (c : Chart) (n : Nat) : Option (List Command) := do
  let node ← c.node? n
  return node.after.map (fun d => .schedule n { type := d.event } d.delayMs)
    ++ node.invoke.map (fun i => .invoke n i.id i.src)

def onExit? (c : Chart) (n : Nat) : Option (List Command) := do
  let node ← c.node? n
  return (if node.after.isEmpty then [] else [.cancelTimers n])
    ++ node.invoke.map (fun i => .stopActor i.id)

theorem onEntering?_eq {n : Nat} (hn : n < c.size) : onEntering? c n = some (onEntry c n) := by
  rw [onEntering?, Chart.node?_eq hn]
  rfl

theorem onExit?_eq {n : Nat} (hn : n < c.size) : onExit? c n = some (onExit c n) := by
  rw [onExit?, Chart.node?_eq hn]
  rfl

end Command

namespace Execution

/-- The active states and those that are remembered are states of the chart. -/
structure InChart (c : Chart) (x : Execution C E) : Prop where
  holds : c.Holds x.configuration
  recalls : c.Recalls x.history

/-! ## What is noted -/

def remembered? (c : Chart) (configuration : NodeSet) (parent : Nat) :
    HistoryMode → Option (List Nat)
  | .shallow => c.activeChildren? parent configuration
  | .deep => do (← c.activeLeaves? configuration).filterM fun n => c.isDescendant? n parent

def recordChildren? (c : Chart) (configuration : NodeSet) (history : Dict (List Nat))
    (parent : Nat) : Option (Dict (List Nat)) := do
  (← c.node? parent).children.foldlM (fun history k => do
    let child ← c.node? k
    match child.history with
    | none => return history
    | some mode => return history.insert child.id (← remembered? c configuration parent mode))
    history

def recordHistory? (c : Chart) (exits : NodeSet) (x : Execution C E) :
    Option (Execution C E) := do
  return { x with history := ← exits.toList.foldlM (recordChildren? c x.configuration) x.history }

section History

variable {configuration : NodeSet}

theorem recalls_insert {history : Dict (List Nat)} (hr : c.Recalls history) {id : String}
    {l : List Nat} (hl : ∀ n ∈ l, n < c.size) : c.Recalls (history.insert id l) := by
  intro other noted hget n hn
  by_cases he : other = id
  · subst he
    rw [Dict.get?_insert_self] at hget
    cases hget
    exact hl n hn
  · rw [Dict.get?_insert_of_ne he] at hget
    exact hr other noted hget n hn

variable (h : c.Closed) (hc : c.Holds configuration)
include h hc

omit h in
theorem remembered?_eq {parent : Nat} (hp : parent < c.size) (mode : HistoryMode) :
    remembered? c configuration parent mode = some (remembered c configuration parent mode) := by
  cases mode with
  | shallow => exact Chart.activeChildren?_eq hp
  | deep =>
    rw [remembered?, Chart.activeLeaves?_eq hc]
    exact filterM_eq fun n hn => Chart.isDescendant?_eq (Chart.activeLeaves_lt hc hn) hp

theorem remembered_lt {parent : Nat} (mode : HistoryMode) :
    ∀ n ∈ remembered c configuration parent mode, n < c.size := by
  intro n hn
  cases mode with
  | shallow => exact Chart.activeChildren_lt h hn
  | deep => exact Chart.activeLeaves_lt hc (List.mem_of_mem_filter hn)

theorem recordChildren?_eq {history : Dict (List Nat)} (hr : c.Recalls history) {parent : Nat}
    (hp : parent < c.size) :
    recordChildren? c configuration history parent =
        some (recordChildren c configuration history parent) ∧
      c.Recalls (recordChildren c configuration history parent) := by
  rw [recordChildren?, recordChildren, Chart.node?_eq hp]
  refine foldlM_eq (P := c.Recalls) (fun history hr k hk => ?_) hr
  rw [Chart.node?_eq (h.children parent k hk), Option.bind_eq_bind, Option.bind_some]
  cases (c.node k).history with
  | none => exact ⟨rfl, hr⟩
  | some mode =>
    dsimp only
    rw [remembered?_eq hc hp]
    exact ⟨rfl, recalls_insert hr (remembered_lt h hc mode)⟩

omit hc in
theorem recordHistory?_eq {x : Execution C E} (hx : x.InChart c) {exits : NodeSet}
    (he : c.Holds exits) :
    recordHistory? c exits x = some (recordHistory c exits x) ∧
      (recordHistory c exits x).InChart c := by
  obtain ⟨heq, hr⟩ := foldlM_eq (P := c.Recalls)
    (fun history hr n hn => recordChildren?_eq h hx.holds hr (he n hn)) hx.recalls
  rw [recordHistory?, heq]
  exact ⟨rfl, hx.holds, hr⟩

end History

/-! ## Leaving and entering states -/

def exitState? (c : Chart) (r : Registry C E A) (mode : Mode) (event : Event) (x : Execution C E)
    (n : Nat) : ExceptT (Halt E) Option (Execution C E) := do
  let node ← c.node? n
  let commands ← Command.onExit? c n
  let x ← x.runActions r mode event node.exit
  let x := x.request commands
  return { x with configuration := x.configuration.erase n }

def exitStates? (c : Chart) (r : Registry C E A) (mode : Mode) (event : Event) (exits : NodeSet)
    (x : Execution C E) : ExceptT (Halt E) Option (Execution C E) :=
  exits.toList.reverse.foldlM (exitState? c r mode event) x

def raiseCompletion? (c : Chart) (final : Nat) (x : Execution C E) :
    Option (Execution C E) := do
  match (← c.node? final).parent with
  | none => return x
  | some parent =>
    if parent = Chart.root then return x
    else do
      let node ← c.node? parent
      let x := x.raise (.doneState node.id)
      match node.parent with
      | none => return x
      | some grandparent => do
        let above ← c.node? grandparent
        let complete ← c.isComplete? x.configuration grandparent
        if grandparent ≠ Chart.root ∧ above.isParallel ∧ complete then
          return x.raise (.doneState above.id)
        else return x

def enterState? (c : Chart) (r : Registry C E A) (mode : Mode) (event : Event) (x : Execution C E)
    (n : Nat) : ExceptT (Halt E) Option (Execution C E) := do
  let node ← c.node? n
  let commands ← Command.onEntering? c n
  let x := { x with configuration := x.configuration.insert n }
  let x ← (x.request commands).runActions r mode event node.entry
  if node.isFinal then raiseCompletion? c n x else return x

def enterStates? (c : Chart) (r : Registry C E A) (mode : Mode) (event : Event)
    (entries : NodeSet) (x : Execution C E) : ExceptT (Halt E) Option (Execution C E) :=
  entries.toList.foldlM (enterState? c r mode event) x

def enterSet? (c : Chart) (r : Registry C E A) (mode : Mode) (event : Event)
    (entries : OptionT Option NodeSet) (x : Execution C E) :
    ExceptT (Halt E) Option (Execution C E) := do
  match ← entries.run with
  | none => throw ⟨.endlessEntry event.type, x.effects⟩
  | some entries => enterStates? c r mode event entries x

section States

theorem runActions_gives {x : Execution C E} (hx : x.InChart c) (actions : List Action) :
    Gives (InChart c) (liftM (x.runActions r mode event actions))
      (x.runActions r mode event actions) := by
  refine ⟨rfl, fun y hy => ?_⟩
  have hmoved := runActions_moved (c := c) hy
  exact ⟨hmoved.configuration ▸ hx.holds, hmoved.history ▸ hx.recalls⟩

theorem exitState?_gives {x : Execution C E} (hx : x.InChart c) {n : Nat} (hn : n < c.size) :
    Gives (InChart c) (exitState? c r mode event x n) (exitState c r mode event x n) := by
  rw [exitState?, exitState, Chart.node?_eq hn, Command.onExit?_eq hn]
  refine Gives.lift (Gives.lift ?_)
  refine (runActions_gives hx _).bind fun y hy => .pure ⟨fun k hk => ?_, hy.recalls⟩
  exact hy.holds k (NodeSet.mem_erase.mp hk).1

theorem exitStates?_gives {x : Execution C E} (hx : x.InChart c) {exits : NodeSet}
    (he : c.Holds exits) :
    Gives (InChart c) (exitStates? c r mode event exits x) (exitStates c r mode event exits x) :=
  Gives.foldlM (fun n hn _ hx => exitState?_gives hx (he n (List.mem_reverse.mp hn))) hx

variable (h : c.Closed)
include h

theorem raiseCompletion?_eq (x : Execution C E) {n : Nat} (hn : n < c.size) :
    raiseCompletion? c n x = some (raiseCompletion c n x) := by
  rw [raiseCompletion?, raiseCompletion, Chart.node?_eq hn, Option.bind_eq_bind, Option.bind_some]
  cases hp : (c.node n).parent with
  | none => rfl
  | some parent =>
    have hparent := h.parent_lt_size hp
    dsimp only
    split
    · rfl
    · rw [Chart.node?_eq hparent, Option.bind_some]
      cases hg : (c.node parent).parent with
      | none => rfl
      | some grandparent =>
        have hgrandparent := h.parent_lt_size hg
        dsimp only
        rw [Chart.node?_eq hgrandparent, Chart.isComplete?_eq h hgrandparent]
        simp only [Option.bind_eq_bind, Option.bind_some]
        split <;> rfl

theorem enterState?_gives {x : Execution C E} (hx : x.InChart c) {n : Nat} (hn : n < c.size) :
    Gives (InChart c) (enterState? c r mode event x n) (enterState c r mode event x n) := by
  have hentered : (({ x with configuration := x.configuration.insert n } : Execution C E).request
      (Command.onEntry c n)).InChart c := ⟨hx.holds.insert hn, hx.recalls⟩
  rw [enterState?, enterState, Chart.node?_eq hn, Command.onEntering?_eq hn]
  refine Gives.lift (Gives.lift ?_)
  refine (runActions_gives hentered _).bind fun y hy => ?_
  split
  · rw [raiseCompletion?_eq h y hn]
    refine .pure ⟨?_, ?_⟩
    · rw [(raiseCompletion_moved n y).configuration]; exact hy.holds
    · rw [(raiseCompletion_moved n y).history]; exact hy.recalls
  · exact .pure hy

theorem enterStates?_gives {x : Execution C E} (hx : x.InChart c) {entries : NodeSet}
    (he : c.Holds entries) :
    Gives (InChart c) (enterStates? c r mode event entries x)
      (enterStates c r mode event entries x) :=
  Gives.foldlM (fun n hn _ hx => enterState?_gives h hx (he n hn)) hx

theorem enterSet?_gives {x : Execution C E} (hx : x.InChart c) {entries? : OptionT Option NodeSet}
    {entries : Option NodeSet} (he : c.Answers entries? entries) :
    Gives (InChart c) (enterSet? c r mode event entries? x)
      (enterSet c r mode event entries x) := by
  rw [enterSet?, he.eq]
  refine Gives.lift ?_
  cases hs : entries with
  | none => exact .throw
  | some states => exact enterStates?_gives h hx (he.holds states hs)

end States

/-! ## Microsteps -/

def microstep? (c : Chart) (r : Registry C E A) (mode : Mode) (transitions : List Nat)
    (event : Event) (x : Execution C E) : ExceptT (Halt E) Option (Execution C E) := do
  let x := { x with microsteps := x.microsteps + 1 }
  let exits ← c.exitSet? x.configuration transitions
  let x ← recordHistory? c exits x
  let x ← exitStates? c r mode event exits x
  let x ← transitions.foldlM (fun x t => do
    let transition ← c.transition? t
    x.runActions r mode event transition.actions) x
  enterSet? c r mode event (c.entrySet? x.history transitions) x

def enterInitial? (c : Chart) (r : Registry C E A) (mode : Mode) (event : Event)
    (x : Execution C E) : ExceptT (Halt E) Option (Execution C E) :=
  enterSet? c r mode event c.initialEntrySet? { x with microsteps := x.microsteps + 1 }

def exitAll? (c : Chart) (r : Registry C E A) (mode : Mode) (event : Event)
    (x : Execution C E) : ExceptT (Halt E) Option (Execution C E) :=
  exitStates? c r mode event x.configuration x

variable {x : Execution C E} (hx : x.InChart c)
include hx

theorem exitAll?_gives :
    Gives (InChart c) (exitAll? c r mode event x) (exitAll c r mode event x) :=
  exitStates?_gives hx hx.holds

variable (h : c.Closed)
include h

/-- A microstep of transitions that are there. -/
theorem microstep?_gives {transitions : List Nat} (ht : c.Offers transitions) :
    Gives (InChart c) (microstep? c r mode transitions event x)
      (microstep c r mode transitions event x) := by
  have hbegun : ({ x with microsteps := x.microsteps + 1 } : Execution C E).InChart c :=
    ⟨hx.holds, hx.recalls⟩
  have hexits := Chart.exitSet_holds hx.holds transitions
  obtain ⟨hrecord, hrecorded⟩ := recordHistory?_eq h hbegun hexits
  rw [microstep?, microstep]
  dsimp only
  rw [Chart.exitSet?_eq h hx.holds ht]
  refine Gives.lift ?_
  rw [hrecord]
  refine Gives.lift ((exitStates?_gives hrecorded hexits).bind fun y hy => ?_)
  refine Gives.bind (P := InChart c) (Gives.foldlM (fun t hm z hz => ?_) hy) fun z hz => ?_
  · rw [Chart.transition?_eq (ht t hm)]
    exact Gives.lift (runActions_gives hz _)
  · exact enterSet?_gives h hz (Chart.entrySet?_answers h hz.recalls ht)

theorem enterInitial?_gives :
    Gives (InChart c) (enterInitial? c r mode event x) (enterInitial c r mode event x) := by
  have hbegun : ({ x with microsteps := x.microsteps + 1 } : Execution C E).InChart c :=
    ⟨hx.holds, hx.recalls⟩
  exact enterSet?_gives h hbegun (Chart.initialEntrySet?_answers h)

end Execution

end Statechart
