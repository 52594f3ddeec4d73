import Statechart.Proofs.Macrostep.Run

/-!
# The phases of a macrostep

A microstep is a row of phases: the exits, the deepest first, then the actions of its
transitions, then the entries, parents first. Which phases these are follows from where it
begins (`Execution.phases`), and taking the microstep is running them one after the other
(`microstep_eq_run`). What a phase adds to the labels and to the commands depends on nothing
but the chart, and which events it raises on nothing but the chart and the configuration that it
begins in. Only actions change the context. The phases of a macrostep are those of its microsteps.

* `microstep_written`: the labels, commands and raised events of a microstep are those of its
  phases.
* `stabilize_phases`: what microsteps keep together with their phases, the loop keeps.
* `startStep_phases`, `step_phases`: the same for whole macrosteps.
-/
namespace Statechart

def Action.request? : Action → Option Command
  | .sendTo actor event => some (.sendTo actor event)
  | _ => none

def Action.raised? : Action → Option Event
  | .raise event => some event
  | _ => none

/-- What raises an event. -/
inductive Raise where
  /-- An action that asks for it. -/
  | action (event : Event)
  /-- A final state that was entered, on behalf of a state that it completes. -/
  | completed (n : Nat)
deriving DecidableEq, Repr

def Raise.event (c : Chart) : Raise → Event
  | .action event => event
  | .completed n => .doneState (c.node n).id

/-- The states that are announced when a final state was entered. -/
def Chart.announced (c : Chart) (configuration : NodeSet) (final : Nat) : List Nat :=
  match (c.node final).parent with
  | none => []
  | some parent =>
    if parent = root then []
    else parent :: match (c.node parent).parent with
      | none => []
      | some grandparent =>
        if grandparent ≠ root ∧ (c.node grandparent).isParallel
          ∧ c.isComplete configuration grandparent then [grandparent] else []

/-- A piece of a microstep. -/
inductive Phase where
  /-- A state is left: its exit actions, then the end of its timers and actors. -/
  | exit (n : Nat)
  /-- The actions of a transition. -/
  | act (t : Nat)
  /-- A state is entered: its timers and actors, then its entry actions. -/
  | enter (n : Nat)
deriving DecidableEq, Repr

namespace Phase

def actions (c : Chart) : Phase → List Action
  | .exit n => (c.node n).exit
  | .act t => (c.transition t).actions
  | .enter n => (c.node n).entry

def labels (c : Chart) (p : Phase) : List String := (p.actions c).map Action.label

def commands (c : Chart) (p : Phase) : List Command :=
  let requests := (p.actions c).filterMap Action.request?
  match p with
  | .exit n => requests ++ Command.onExit c n
  | .act _ => requests
  | .enter n => Command.onEntry c n ++ requests

def apply (configuration : NodeSet) : Phase → NodeSet
  | .exit n => configuration.erase n
  | .act _ => configuration
  | .enter n => configuration.insert n

def raises (c : Chart) (configuration : NodeSet) (p : Phase) : List Raise :=
  let asked := ((p.actions c).filterMap Action.raised?).map .action
  match p with
  | .enter n =>
    if (c.node n).isFinal then
      asked ++ (c.announced (configuration.insert n) n).map .completed
    else asked
  | _ => asked

def run {C E A : Type} (c : Chart) (r : Registry C E A) (mode : Mode) (event : Event)
    (x : Execution C E) : Phase → Attempt E (Execution C E)
  | .exit n => x.exitState c r mode event n
  | .act t => x.runActions r mode event (c.transition t).actions
  | .enter n => x.enterState c r mode event n

end Phase

def raises (c : Chart) : NodeSet → List Phase → List Raise
  | _, [] => []
  | configuration, p :: phases =>
    p.raises c configuration ++ raises c (p.apply configuration) phases

theorem raises_append {c : Chart} : ∀ {phases more : List Phase} {configuration : NodeSet},
    raises c configuration (phases ++ more) =
      raises c configuration phases ++ raises c (phases.foldl Phase.apply configuration) more
  | [], _, _ => rfl
  | p :: phases, more, configuration => by
    rw [List.cons_append, raises, raises, raises_append, List.append_assoc, List.foldl_cons]

theorem mem_foldl_of_not_enter {phases : List Phase} {n : Nat} {configuration : NodeSet}
    (hn : .enter n ∉ phases) :
    n ∈ phases.foldl Phase.apply configuration ↔ n ∈ configuration ∧ .exit n ∉ phases := by
  induction phases generalizing configuration with
  | nil => simp
  | cons p phases ih =>
    rw [List.mem_cons, not_or] at hn
    rw [List.foldl_cons, ih hn.2, List.mem_cons, not_or, ← and_assoc]
    cases p with
    | exit k => simp [Phase.apply, NodeSet.mem_erase]
    | act t => simp [Phase.apply]
    | enter k =>
      have hne : n ≠ k := fun e => hn.1 (congrArg Phase.enter e)
      simp [Phase.apply, NodeSet.mem_insert, hne]

namespace Execution

variable {C E A : Type} {c : Chart} {r : Registry C E A} {mode : Mode} {event : Event}
  {x y z : Execution C E}

def phases (c : Chart) (x : Execution C E) (transitions : List Nat) : List Phase :=
  let exits := c.exitSet x.configuration transitions
  exits.toList.reverse.map .exit ++ transitions.map .act ++
    ((c.entrySet (recordHistory c exits x).history transitions).getD ∅).toList.map .enter

theorem phases_eq {transitions : List Nat} {entries : NodeSet}
    (he : c.entrySet (recordHistory c (c.exitSet x.configuration transitions) x).history
      transitions = some entries) :
    x.phases c transitions = (c.exitSet x.configuration transitions).toList.reverse.map .exit ++
      transitions.map .act ++ entries.toList.map .enter := by
  simp only [phases, he, Option.getD_some]

theorem bind_congr_ok {ε α β : Type} {a : Except ε α} {f g : α → Except ε β}
    (h : ∀ x, a = .ok x → f x = g x) : a >>= f = a >>= g := by
  cases a with
  | error _ => rfl
  | ok x => exact h x rfl

/-- A microstep that has an entry set is the run of its phases. -/
theorem microstep_eq_run {transitions : List Nat} {entries : NodeSet}
    (he : c.entrySet (recordHistory c (c.exitSet x.configuration transitions) x).history
      transitions = some entries) :
    microstep c r mode transitions event x =
      (x.phases c transitions).foldlM (Phase.run c r mode event)
        { recordHistory c (c.exitSet x.configuration transitions) x with
          microsteps := x.microsteps + 1 } := by
  simp only [phases_eq he, List.foldlM_append, List.foldlM_map, bind_assoc]
  -- The entry set is asked for only after the exits and actions, but they leave the history alone.
  refine bind_congr_ok fun t ht => bind_congr_ok fun u hu => ?_
  have hhistory : u.history =
      (recordHistory c (c.exitSet x.configuration transitions) x).history :=
    (Moved.foldlM (c := c) (g := fun _ => []) (fun _ _ _ he => runActions_moved he)
      transitions hu).history.trans (exitStates_moved ht).history
  rw [hhistory, he]
  rfl

/-! ## What actions and phases write -/

/-- `y` comes from `x` by actions. -/
structure Acted (actions : List Action) (x y : Execution C E) : Prop where
  labels : y.actions = x.actions ++ actions.map Action.label
  commands : y.commands = x.commands ++ actions.filterMap Action.request?
  configuration : y.configuration = x.configuration
  internal : y.internal = x.internal ++ actions.filterMap Action.raised?
  idle : actions = [] → y = x

theorem runNamed_acted {name : String}
    (h : runNamed r mode event { x with actions := x.actions ++ [(Action.named name).label] } name =
      .ok y) : Acted [.named name] x y := by
  unfold runNamed at h
  split at h
  · cases h
  · split at h
    · cases h; exact ⟨rfl, by simp [Action.request?], rfl, by simp [Action.raised?], nofun⟩
    · cases h
  · split at h
    · cases h; exact ⟨rfl, by simp [Action.request?], rfl, by simp [Action.raised?], nofun⟩
    · split at h
      · cases h; exact ⟨rfl, by simp [Action.request?], rfl, by simp [Action.raised?], nofun⟩
      · cases h

theorem runAction_acted {action : Action} (h : runAction r mode event x action = .ok y) :
    Acted [action] x y := by
  cases action with
  | named name => exact runNamed_acted h
  | raise raised =>
    cases h
    exact ⟨rfl, by simp [raise, Action.request?], rfl, rfl, fun hnil => absurd hnil (by simp)⟩
  | sendTo actor sent =>
    cases h
    exact ⟨rfl, rfl, rfl, by simp [request, Action.raised?], fun hnil => absurd hnil (by simp)⟩

theorem runActions_acted : ∀ (actions : List Action) {x y : Execution C E},
    runActions r mode event x actions = .ok y → Acted actions x y
  | [], x, y, h => by cases h; exact ⟨by simp, by simp, rfl, by simp, fun _ => rfl⟩
  | action :: actions, x, y, h => by
    rw [runActions, List.foldlM_cons, bind_ok] at h
    obtain ⟨t, ht, h⟩ := h
    have first := runAction_acted ht
    have rest := runActions_acted actions h
    refine ⟨by simp [rest.labels, first.labels], ?_, rest.configuration.trans first.configuration,
      ?_, nofun⟩
    · rw [rest.commands, first.commands, List.append_assoc, ← List.filterMap_append]; rfl
    · rw [rest.internal, first.internal, List.append_assoc, ← List.filterMap_append]; rfl

theorem raiseCompletion_eq (n : Nat) (x : Execution C E) :
    raiseCompletion c n x = { x with
      internal := x.internal ++
        (c.announced x.configuration n).map fun k => .doneState (c.node k).id } := by
  unfold raiseCompletion Chart.announced raise
  cases hparent : (c.node n).parent with
  | none => simp
  | some parent =>
    dsimp only
    by_cases hroot : parent = Chart.root
    · simp [hroot]
    · rw [if_neg hroot, if_neg hroot]
      cases (c.node parent).parent with
      | none => rfl
      | some grandparent =>
        dsimp only
        split <;> simp

/-- `y` comes from `x` by phases. -/
structure Written (c : Chart) (phases : List Phase) (x y : Execution C E) : Prop where
  actions : y.actions = x.actions ++ phases.flatMap (Phase.labels c)
  commands : y.commands = x.commands ++ phases.flatMap (Phase.commands c)
  configuration : y.configuration = phases.foldl Phase.apply x.configuration
  internal : y.internal = x.internal ++ (raises c x.configuration phases).map (Raise.event c)
  /-- Without actions there are neither effects nor a new context. -/
  idle : phases.flatMap (Phase.actions c) = [] → y.context = x.context ∧ y.effects = x.effects

namespace Written

theorem refl (c : Chart) (x : Execution C E) : Written c [] x x where
  actions := by simp
  commands := by simp
  configuration := rfl
  internal := by simp [raises]
  idle _ := ⟨rfl, rfl⟩

theorem trans {phases more : List Phase} (h : Written c phases x y) (h' : Written c more y z) :
    Written c (phases ++ more) x z where
  actions := by rw [h'.actions, h.actions, List.flatMap_append, List.append_assoc]
  commands := by rw [h'.commands, h.commands, List.flatMap_append, List.append_assoc]
  configuration := by rw [h'.configuration, h.configuration, List.foldl_append]
  internal := by
    rw [h'.internal, h.internal, h.configuration, raises_append, List.map_append, List.append_assoc]
  idle hnone := by
    rw [List.flatMap_append, List.append_eq_nil_iff] at hnone
    obtain ⟨hcontext, heffects⟩ := h.idle hnone.1
    obtain ⟨hcontext', heffects'⟩ := h'.idle hnone.2
    exact ⟨hcontext'.trans hcontext, heffects'.trans heffects⟩

theorem foldlM (hrun : ∀ p x y, Phase.run c r mode event x p = .ok y → Written c [p] x y) :
    ∀ (phases : List Phase) {x y : Execution C E},
      phases.foldlM (Phase.run c r mode event) x = .ok y → Written c phases x y
  | [], x, y, h => by cases h; exact .refl c x
  | p :: phases, x, y, h => by
    rw [List.foldlM_cons, bind_ok] at h
    obtain ⟨t, ht, h⟩ := h
    exact (hrun p x t ht).trans (foldlM hrun phases h)

end Written

theorem run_written (p : Phase) (x y : Execution C E) (h : Phase.run c r mode event x p = .ok y) :
    Written c [p] x y := by
  cases p with
  | exit n =>
    simp only [Phase.run, exitState, bind_ok, pure_ok] at h
    obtain ⟨t, ht, rfl⟩ := h
    have ha := runActions_acted _ ht
    exact {
      actions := by simp [request, ha.labels, Phase.labels, Phase.actions]
      commands := by simp [request, ha.commands, Phase.commands, Phase.actions]
      configuration := congrArg (NodeSet.erase n) ha.configuration
      internal := by
        simp [request, ha.internal, raises, Phase.raises, Phase.actions, Raise.event,
          Function.comp_def]
      idle := fun hnone => by
        rw [ha.idle (by simpa [Phase.actions] using hnone)]
        exact ⟨rfl, rfl⟩ }
  | act t =>
    have ha := runActions_acted _ h
    exact {
      actions := by simp [ha.labels, Phase.labels, Phase.actions]
      commands := by simp [ha.commands, Phase.commands, Phase.actions]
      configuration := ha.configuration
      internal := by
        simp [ha.internal, raises, Phase.raises, Phase.actions, Raise.event, Function.comp_def]
      idle := fun hnone => by
        rw [ha.idle (by simpa [Phase.actions] using hnone)]
        exact ⟨rfl, rfl⟩ }
  | enter n =>
    simp only [Phase.run, enterState, bind_ok, pure_ok] at h
    obtain ⟨t, ht, rfl⟩ := h
    have ha := runActions_acted _ ht
    have hconf : t.configuration = x.configuration.insert n := ha.configuration
    let final := if (c.node n).isFinal then
      (c.announced (x.configuration.insert n) n).map (Raise.event c ∘ .completed) else []
    have hfinal : (if (c.node n).isFinal then raiseCompletion c n t else t) =
        { t with internal := t.internal ++ final } := by
      unfold final
      split
      · rw [raiseCompletion_eq, hconf]; rfl
      · simp
    rw [hfinal]
    exact {
      actions := by simp [request, ha.labels, Phase.labels, Phase.actions]
      commands := by simp [request, ha.commands, Phase.commands, Phase.actions]
      configuration := hconf
      internal := by
        dsimp only
        rw [ha.internal]
        unfold final
        simp only [raises, Phase.raises, Phase.actions, List.append_nil]
        split <;> simp [request, Raise.event, Function.comp_def]
      idle := fun hnone => by
        rw [ha.idle (by simpa [Phase.actions] using hnone)]
        exact ⟨rfl, rfl⟩ }

/-- A microstep adds the labels, the commands and the raised events of its phases. -/
theorem microstep_written {transitions : List Nat}
    (h : microstep c r mode transitions event x = .ok y) :
    Written c (x.phases c transitions) x y := by
  obtain ⟨entries, he, -⟩ := microstep_spec h
  rw [microstep_eq_run he] at h
  obtain ⟨ha, hc, hconf, hi, hidle⟩ := Written.foldlM run_written _ h
  exact ⟨ha, hc, hconf, hi, hidle⟩

theorem enterInitial_written (h : enterInitial c r mode event x = .ok y) :
    Written c ((c.initialEntrySet.getD ∅).toList.map .enter) x y := by
  unfold enterInitial enterSet at h
  split at h
  · cases h
  · rename_i entries he
    rw [he, Option.getD_some]
    obtain ⟨ha, hc, hconf, hi, hidle⟩ := Written.foldlM run_written (entries.toList.map .enter)
      (by rw [List.foldlM_map]; exact h)
    exact ⟨ha, hc, hconf, hi, hidle⟩

end Execution

/-! ## Macrosteps -/

namespace Machine

variable {C E A : Type}

/-- The phases of the loop, in at most `budget` microsteps. -/
def loopPhases (m : Machine C E A) (mode : Mode) : Nat → Event → Execution C E → List Phase
  | 0, _, _ => []
  | budget + 1, current, x =>
    match m.next? current x with
    | .ok (some choice) =>
      x.phases m.chart choice.transitions ++
        match m.take mode x choice with
        | .ok y => m.loopPhases mode budget choice.event y
        | .error _ => []
    | _ => []

def settlePhases (m : Machine C E A) (mode : Mode) (trigger : Event) :
    Attempt E (Execution C E) → List Phase
  | .ok x => m.loopPhases mode (m.maxMicrosteps - x.microsteps) trigger x
  | .error _ => []

def startPhases (m : Machine C E A) (mode : Mode) : List Phase :=
  (m.chart.initialEntrySet.getD ∅).toList.map .enter ++
    m.settlePhases mode .init (Execution.enterInitial m.chart m.registry mode .init
      { configuration := ∅, context := m.context, history := [] })

def stepPhases (m : Machine C E A) (mode : Mode) (s : Snapshot C) (event : Event) : List Phase :=
  if s.done then []
  else match m.registry.select m.chart s.configuration s.context event .event with
    | .error _ => []
    | .ok [] => []
    | .ok transitions =>
      (execution s : Execution C E).phases m.chart transitions ++
        m.settlePhases mode event
          (Execution.microstep m.chart m.registry mode transitions event (execution s))

/-- A macrostep is what an execution has come to. -/
structure Yields (x : Execution C E) (step : Macrostep C) : Prop where
  configuration : step.snapshot.configuration = x.configuration
  context : step.snapshot.context = x.context
  history : step.snapshot.history = x.history
  actions : step.snapshot.actions = x.actions
  commands : step.commands = x.commands

theorem yields_finish (m : Machine C E A) (event : Event) (done changed : Bool)
    (x : Execution C E) : Yields x (m.finish event done changed x) :=
  ⟨rfl, rfl, rfl, rfl, rfl⟩

theorem yields_unchanged (s : Snapshot C) (event : Event) :
    Yields (execution s : Execution C E) (unchanged s event) :=
  ⟨rfl, rfl, rfl, rfl, rfl⟩

variable [BEq C] {m : Machine C E A} {mode : Mode} {P : Execution C E → List Phase → Prop}

/-- Microsteps of selected transitions keep a property of executions and the phases so far. -/
def Keeps (m : Machine C E A) (P : Execution C E → List Phase → Prop) : Prop :=
  ∀ {x y : Execution C E} {phases : List Phase} {mode : Mode} {transitions : List Nat}
    {handled event : Event} {trigger : Trigger} {internal : List Event},
    P x phases →
    m.registry.select m.chart x.configuration x.context handled trigger = .ok transitions →
    Execution.microstep m.chart m.registry mode transitions event { x with internal } = .ok y →
    P y (phases ++ x.phases m.chart transitions)

/-- What microsteps keep together with their phases, the loop keeps. -/
theorem stabilize_phases (hP : m.Keeps P) {trigger current : Event} {budget : Nat}
    {seen : List (Moment C)} {x y : Execution C E} {phases : List Phase} (hx : P x phases)
    (h : m.stabilize mode trigger budget seen current x = .ok y) :
    P y (phases ++ m.loopPhases mode budget current x) := by
  have hr := m.rounds_stabilize mode trigger budget seen current x
  rw [h] at hr
  clear h
  generalize hy : (.ok y : Attempt E (Execution C E)) = result at hr
  induction hr generalizing phases with
  | failed => cases hy
  | @ended budget _ _ _ hn =>
    cases hy
    cases budget <;> simpa [loopPhases, hn] using hx
  | cycle => cases hy
  | limit => cases hy
  | halted => cases hy
  | took hn _ ht _ ih =>
    obtain ⟨event, trigger, hs⟩ := select_of_choose (next?_ok hn)
    have := ih (hP hx hs ht) hy
    rw [List.append_assoc] at this
    simpa only [loopPhases, hn, ht] using this

/-- What entering the initial configuration establishes and microsteps keep, a start has
together with its phases. -/
theorem startStep_phases (hP : m.Keeps P)
    (hstart : ∀ {x : Execution C E}, Execution.enterInitial m.chart m.registry mode .init
      { configuration := ∅, context := m.context, history := [] } = .ok x →
      P x ((m.chart.initialEntrySet.getD ∅).toList.map .enter))
    {step : Macrostep C} (h : (m.startStep mode).result = .ok step) :
    ∃ y, P y (m.startPhases mode) ∧ Yields y step := by
  obtain ⟨x, y, hx, hy, rfl⟩ := startStep_ok h
  refine ⟨y, ?_, yields_finish ..⟩
  rw [startPhases, hx]
  exact stabilize_phases hP (hstart hx) hy

/-- What holds of a snapshot and the phases so far and is kept by microsteps, a step has, and its
effects are those of its execution. -/
theorem step_phases (hP : m.Keeps P) {s : Snapshot C} {event : Event} {phases : List Phase}
    (hs : P (execution s) phases) {step : Macrostep C}
    (h : (m.step s event mode).result = .ok step) :
    ∃ y, P y (phases ++ m.stepPhases mode s event) ∧ Yields y step ∧
      (m.step s event mode).effects = y.effects := by
  generalize hout : m.step s event mode = out at h ⊢
  unfold Machine.step at hout
  unfold stepPhases
  by_cases hd : s.done
  · rw [if_pos hd] at hout
    subst hout
    cases h
    exact ⟨_, by simpa [hd] using hs, yields_unchanged s event, rfl⟩
  · rw [if_neg hd] at hout ⊢
    cases hsel : m.registry.select m.chart s.configuration s.context event .event with
    | error failure => rw [hsel] at hout; subst hout; cases h
    | ok transitions =>
      rw [hsel] at hout
      subst hout
      cases transitions with
      | nil => cases h; exact ⟨_, by simpa using hs, yields_unchanged s event, rfl⟩
      | cons t rest =>
        obtain ⟨y, hrun, rfl⟩ := outcome_ok h
        have heffects : (outcome (fun x => m.finish event (m.isDone x.configuration)
            (hasChanged s x) x) (m.runStep mode s event (t :: rest))).effects = y.effects := by
          rw [hrun]; rfl
        rw [runStep, bind_ok] at hrun
        obtain ⟨x, hx, hy⟩ := hrun
        refine ⟨y, ?_, yields_finish .., heffects⟩
        have hall := stabilize_phases hP (hP hs hsel hx) hy
        rw [List.append_assoc] at hall
        simpa only [hx, settlePhases] using hall

end Machine

end Statechart
