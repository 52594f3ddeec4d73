import Statechart.Proofs.Configuration.Moves
import Statechart.Proofs.Macrostep.Phases

/-!
# Where actions send from

An action that sends runs in the configuration that the phases before it have left (`sends`): a
state that is left is still active while its exit actions run, and one that is entered is so
already while its entry actions do. A macrostep performs its phases one after the other
(`Performs`), and their moves fit (`Tracked`).

* `Performs.action`: the configuration that an action runs in.
* `startStep_tracked`, `step_tracked`: the phases of a macrostep.
-/
namespace Statechart

def Action.sent? : Action → Option (String × Event)
  | .sendTo actor event => some (actor, event)
  | _ => none

theorem Action.requests_eq (actions : List Action) :
    actions.filterMap Action.request? =
      (actions.filterMap Action.sent?).map fun s => .sendTo s.1 s.2 := by
  rw [List.map_filterMap]
  refine List.filterMap_congr fun action _ => ?_
  cases action <;> rfl

/-- An event that an action sends, and the configuration that the action runs in. -/
structure Sent where
  configuration : NodeSet
  actor : String
  event : Event
deriving DecidableEq

namespace Phase

/-- The configuration that the actions of a phase run in. -/
def during (configuration : NodeSet) : Phase → NodeSet
  | .exit _ => configuration
  | .act _ => configuration
  | .enter n => configuration.insert n

def sends (c : Chart) (configuration : NodeSet) (p : Phase) : List Sent :=
  ((p.actions c).filterMap Action.sent?).map fun s => ⟨p.during configuration, s.1, s.2⟩

def moves : Phase → List Move
  | .exit n => [.exit n]
  | .act _ => []
  | .enter n => [.enter n]

end Phase

def sends (c : Chart) : NodeSet → List Phase → List Sent
  | _, [] => []
  | configuration, p :: phases =>
    p.sends c configuration ++ sends c (p.apply configuration) phases

variable {C E A : Type} {c : Chart} {r : Registry C E A} {mode : Mode} {event : Event}
  {x y : Execution C E}

/-- The execution that the actions of a phase begin with. -/
def Phase.opening (c : Chart) (x : Execution C E) : Phase → Execution C E
  | .exit _ => x
  | .act _ => x
  | .enter n =>
    { x with configuration := x.configuration.insert n }.request (Command.onEntry c n)

/-- What a phase does after its actions. -/
def Phase.closing (c : Chart) (x : Execution C E) : Phase → Execution C E
  | .exit n =>
    let x := x.request (Command.onExit c n)
    { x with configuration := x.configuration.erase n }
  | .act _ => x
  | .enter n => if (c.node n).isFinal then Execution.raiseCompletion c n x else x

theorem Phase.run_eq (p : Phase) :
    p.run c r mode event x =
      ((p.opening c x).runActions r mode event (p.actions c)).map fun y => p.closing c y := by
  cases p with
  | exit n => exact bind_pure_comp _ _
  | act t =>
    rw [Phase.run, Phase.opening, Phase.actions]
    cases Execution.runActions r mode event x (c.transition t).actions <;> rfl
  | enter n => exact bind_pure_comp _ _

theorem Phase.opening_configuration (p : Phase) :
    (p.opening c x).configuration = p.during x.configuration := by
  cases p <;> rfl

/-- Every action of a phase runs in the configuration that is active during the phase. -/
theorem Phase.run_action {p : Phase} (h : p.run c r mode event x = .ok y) {pre post : List Action}
    {action : Action} (hp : p.actions c = pre ++ action :: post) :
    ∃ u v, (p.opening c x).runActions r mode event pre = .ok u ∧
      u.configuration = p.during x.configuration ∧
      Execution.runAction r mode event u action = .ok v := by
  rw [Phase.run_eq, hp] at h
  obtain ⟨z, hz, -⟩ := map_ok.mp h
  rw [Execution.runActions, List.foldlM_append, bind_ok] at hz
  obtain ⟨u, hu, hz⟩ := hz
  rw [List.foldlM_cons, bind_ok] at hz
  obtain ⟨v, hv, -⟩ := hz
  exact ⟨u, v, hu, (Execution.runActions_acted pre hu).configuration.trans p.opening_configuration,
    hv⟩

/-! ## The phases of a macrostep -/

theorem Phase.trail (c : Chart) (p : Phase) : Trail c p.moves (p.commands c) := by
  have hrequests : ∀ l : List (String × Event), Trail c [] (l.map fun s => .sendTo s.1 s.2) := by
    intro l
    induction l with
    | nil => exact .nil
    | cons s l ih => exact .send s.1 s.2 ih
  cases p with
  | exit n =>
    rw [Phase.commands, Action.requests_eq]
    exact (hrequests _).append (.single (.exit n))
  | act t =>
    rw [Phase.commands, Action.requests_eq]
    exact hrequests _
  | enter n =>
    rw [Phase.commands, Action.requests_eq]
    exact (Trail.single (.enter n)).append (hrequests _)

theorem trail_phases (c : Chart) (phases : List Phase) :
    Trail c (phases.flatMap Phase.moves) (phases.flatMap (Phase.commands c)) := by
  induction phases with
  | nil => exact .nil
  | cons p phases ih => exact (p.trail c).append ih

/-- Phases run one after the other in an execution that begins in a configuration. Between two
phases the execution changes neither its configuration nor what actions write. -/
inductive Performs (c : Chart) (r : Registry C E A) (begun : NodeSet) :
    List Phase → Execution C E → Prop
  | begin {x : Execution C E} (hconfiguration : x.configuration = begun) (hactions : x.actions = [])
      (hcommands : x.commands = []) : Performs c r begun [] x
  | between {phases : List Phase} {x y : Execution C E} (h : Performs c r begun phases x)
      (hconfiguration : y.configuration = x.configuration) (hactions : y.actions = x.actions)
      (hcommands : y.commands = x.commands) : Performs c r begun phases y
  | phase {phases : List Phase} {p : Phase} {mode : Mode} {event : Event} {x y : Execution C E}
      (h : Performs c r begun phases x) (hrun : p.run c r mode event x = .ok y) :
      Performs c r begun (phases ++ [p]) y

namespace Performs

variable {begun : NodeSet} {phases more : List Phase}

/-- Phases that are performed account for the configuration, the labels and the commands. -/
theorem written (h : Performs c r begun phases x) :
    x.configuration = phases.foldl Phase.apply begun ∧
      x.actions = phases.flatMap (Phase.labels c) ∧
      x.commands = phases.flatMap (Phase.commands c) := by
  induction h with
  | begin hconfiguration hactions hcommands => exact ⟨hconfiguration, hactions, hcommands⟩
  | between _ hconfiguration hactions hcommands ih => rwa [hconfiguration, hactions, hcommands]
  | @phase phases p mode event x y _ hrun ih =>
    have hw := Execution.run_written p x y hrun
    refine ⟨?_, ?_, ?_⟩
    · rw [hw.configuration, ih.1, List.foldl_append]
    · rw [hw.actions, ih.2.1, List.flatMap_append]
    · rw [hw.commands, ih.2.2, List.flatMap_append]

theorem foldlM {mode : Mode} {event : Event} : ∀ (more : List Phase) {phases : List Phase}
    {x y : Execution C E}, Performs c r begun phases x →
    more.foldlM (Phase.run c r mode event) x = .ok y → Performs c r begun (phases ++ more) y
  | [], phases, x, y, hx, h => by
    cases h
    rwa [List.append_nil]
  | p :: more, phases, x, y, hx, h => by
    rw [List.foldlM_cons, bind_ok] at h
    obtain ⟨z, hz, h⟩ := h
    rw [List.append_cons]
    exact foldlM more (hx.phase hz) h

theorem ran {before after : List Phase} {p : Phase}
    (h : Performs c r begun (before ++ p :: after) y) :
    ∃ mode event x z, Performs c r begun before x ∧ p.run c r mode event x = .ok z := by
  generalize hall : before ++ p :: after = phases at h
  induction h generalizing after with
  | begin => simp at hall
  | between _ _ _ _ ih => exact ih hall
  | @phase phases q mode event x y hx hrun ih =>
    rcases List.eq_nil_or_concat after with rfl | ⟨rest, last, rfl⟩
    · obtain ⟨rfl, hq⟩ := List.append_inj' hall rfl
      cases hq
      exact ⟨mode, event, x, y, hx, hrun⟩
    · rw [List.concat_eq_append, ← List.cons_append, ← List.append_assoc] at hall
      exact ih (List.append_inj' hall rfl).1

/-- Every action of the phases has run in the configuration that the phases before it have
left. -/
theorem action {before after : List Phase} {p : Phase}
    (h : Performs c r begun (before ++ p :: after) y) {pre post : List Action} {action : Action}
    (hp : p.actions c = pre ++ action :: post) :
    ∃ mode event u v, u.configuration = p.during (before.foldl Phase.apply begun) ∧
      Execution.runAction r mode event u action = .ok v := by
  obtain ⟨mode, event, x, z, hx, hrun⟩ := h.ran
  obtain ⟨u, v, -, hu, hv⟩ := Phase.run_action hrun hp
  exact ⟨mode, event, u, v, by rw [hu, hx.written.1], hv⟩

theorem microstep {transitions : List Nat} {internal : List Event}
    (hx : Performs c r begun phases x)
    (h : Execution.microstep c r mode transitions event { x with internal } = .ok y) :
    Performs c r begun (phases ++ x.phases c transitions) y := by
  obtain ⟨entries, he, -⟩ := Execution.microstep_spec h
  rw [Execution.microstep_eq_run he] at h
  refine Performs.foldlM _ ?_ h
  exact hx.between rfl rfl rfl

theorem enterInitial (hconfiguration : x.configuration = begun) (hactions : x.actions = [])
    (hcommands : x.commands = []) (h : Execution.enterInitial c r mode event x = .ok y) :
    Performs c r begun ((c.initialEntrySet.getD ∅).toList.map .enter) y := by
  unfold Execution.enterInitial Execution.enterSet at h
  split at h
  · cases h
  · rename_i entries he
    rw [he, Option.getD_some]
    have hrun : (entries.toList.map Phase.enter).foldlM (Phase.run c r mode event)
        { x with microsteps := x.microsteps + 1 } = .ok y := by
      rw [List.foldlM_map]; exact h
    have hbegin : Performs c r begun [] { x with microsteps := x.microsteps + 1 } :=
      .begin hconfiguration hactions hcommands
    exact hbegin.foldlM _ hrun

end Performs

/-- An execution has performed phases whose moves fit. -/
structure Tracked (c : Chart) (r : Registry C E A) (begun : NodeSet) (x : Execution C E)
    (phases : List Phase) : Prop where
  contained : c.Contained x.configuration x.history
  fits : Move.FitAll begun (phases.flatMap Phase.moves)
  performed : Performs c r begun phases x

theorem foldl_moves (phases : List Phase) (configuration : NodeSet) :
    (phases.flatMap Phase.moves).foldl Move.apply configuration =
      phases.foldl Phase.apply configuration := by
  induction phases generalizing configuration with
  | nil => rfl
  | cons p phases ih =>
    rw [List.flatMap_cons, List.foldl_append, ih]
    cases p <;> rfl

theorem Tracked.leads {begun : NodeSet} {phases : List Phase} (h : Tracked c r begun x phases) :
    c.Leads begun x.configuration x.commands := by
  obtain ⟨hconfiguration, -, hcommands⟩ := h.performed.written
  exact ⟨_, h.fits, by rw [foldl_moves, hconfiguration], hcommands ▸ trail_phases c phases⟩

theorem flatMap_moves {f : Nat → Phase} {g : Nat → Move} (hf : ∀ n, (f n).moves = [g n])
    (l : List Nat) : (l.map f).flatMap Phase.moves = l.map g := by
  rw [List.flatMap_map, List.map_eq_flatMap]
  exact congrArg (List.flatMap · l) (funext hf)

theorem moves_phases {transitions : List Nat} {entries : NodeSet}
    (he : c.entrySet (Execution.recordHistory c (c.exitSet x.configuration transitions) x).history
      transitions = some entries) :
    (x.phases c transitions).flatMap Phase.moves =
      Execution.moves (c.exitSet x.configuration transitions) entries := by
  have hacts : (transitions.map Phase.act).flatMap Phase.moves = [] := by
    simp [List.flatMap_map, Phase.moves]
  have hexits := flatMap_moves (f := .exit) (g := .exit) (fun _ => rfl)
  have henters := flatMap_moves (f := .enter) (g := .enter) (fun _ => rfl)
  rw [Execution.phases_eq he, List.flatMap_append, List.flatMap_append, hacts, List.append_nil,
    hexits, henters, Execution.moves]

namespace Machine

variable [BEq C] {m : Machine C E A} {names : Names} (h : m.chart.Accepted names)
  (hd : m.chart.DefaultsInside)
include h hd

omit [BEq C] in
/-- The moves of a microstep of selected transitions fit, and its phases are performed. -/
theorem keeps_tracked (begun : NodeSet) : m.Keeps (Tracked m.chart m.registry begun) := by
  intro x y phases mode transitions handled event trigger internal hx hs hm
  obtain ⟨entries, he, -⟩ := Execution.microstep_spec hm
  have hc : m.chart.Contained ({ x with internal } : Execution C E).configuration
    ({ x with internal } : Execution C E).history := hx.contained
  refine ⟨(hc.microstep h hd hs hm).1, ?_, hx.performed.microstep hm⟩
  rw [List.flatMap_append, Move.fitAll_append, foldl_moves, ← hx.performed.written.1]
  exact ⟨hx.fits, moves_phases he ▸ hc.fits h hd hs he⟩

theorem startStep_tracked {step : Macrostep C} (hs : (m.startStep mode).result = .ok step) :
    ∃ y : Execution C E, Tracked m.chart m.registry ∅ y (m.startPhases mode) ∧ Yields y step := by
  refine startStep_phases (keeps_tracked h hd ∅) (fun {x} hx => ?_) hs
  refine ⟨(Chart.enterInitial_leads h hd rfl rfl hx).1, ?_, .enterInitial rfl rfl rfl hx⟩
  rw [flatMap_moves (f := .enter) (g := .enter) fun _ => rfl]
  exact Move.fitAll_enters (NodeSet.nodup _) fun n _ => .inl (NodeSet.mem_empty.mp ·)

theorem step_tracked {s : Snapshot C} (hc : m.chart.Contained s.configuration s.history)
    {step : Macrostep C} (hs : (m.step s event mode).result = .ok step) :
    ∃ y : Execution C E,
      Tracked m.chart m.registry s.configuration y (m.stepPhases mode s event) ∧ Yields y step := by
  have hbegin : Tracked m.chart m.registry s.configuration (execution s : Execution C E) [] :=
    ⟨hc, trivial, .begin rfl rfl rfl⟩
  obtain ⟨y, hy, hyields, -⟩ := step_phases (keeps_tracked h hd s.configuration) hbegin hs
  exact ⟨y, hy, hyields⟩

end Machine

end Statechart
