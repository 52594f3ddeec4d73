import Statechart.Journal
import Statechart.Proofs.Macrostep.Phases
import Statechart.Proofs.Search.Live

/-!
# Rows of macrosteps

The macrosteps of a row of events, each from the snapshot that the one before leaves, and what
becomes of them: a journal has those that made a difference (`Macrostep.records`), and a session
ends with the first that completes the root (`Macrostep.untilDone`). Where no state invokes actors
or has delayed transitions, they ask for nothing but deliveries to actors (`SendsOnly`).

* `replay_of_macrosteps`: replaying the events goes through the snapshots.
* `sendsOnly_of_start`, `sendsOnly_of_step`: what the macrosteps ask for.
-/
namespace Statechart

variable {C E A : Type}

/-- No state invokes actors or has delayed transitions. -/
structure Chart.SelfContained (c : Chart) : Prop where
  invoke (n : Nat) : (c.node n).invoke = []
  after (n : Nat) : (c.node n).after = []

theorem Chart.SelfContained.of_nodes {c : Chart}
    (h : ∀ n < c.size, (c.node n).invoke = [] ∧ (c.node n).after = []) : c.SelfContained := by
  have hall : ∀ n, (c.node n).invoke = [] ∧ (c.node n).after = [] := fun n => by
    rcases Nat.lt_or_ge n c.size with hlt | hge
    · exact h n hlt
    · rw [c.node_of_size_le hge]; exact ⟨rfl, rfl⟩
  exact ⟨fun n => (hall n).1, fun n => (hall n).2⟩

/-! ## The macrosteps of a machine -/

namespace Macrostep

/-- Macrosteps up to and including the first that completes the root. -/
def untilDone : List (Macrostep C) → List (Macrostep C)
  | [] => []
  | step :: steps => step :: if step.snapshot.done then [] else untilDone steps

/-- The journal of macrosteps that begin at a value: those that made a difference. -/
def records (time : Timestamp) : Option StateValue → List (Macrostep C) → List StepRecord
  | _, [] => []
  | before, step :: steps =>
    let after := step.snapshot.value
    let rest := records time (some after) steps
    if step.snapshot.changed then
      { event := step.snapshot.event.type
        before := before.getD after
        after
        timestamp := time
        microsteps := step.microsteps } :: rest
    else rest

def lastValue (before : Option StateValue) (steps : List (Macrostep C)) : Option StateValue :=
  (steps.getLast?.map fun step => step.snapshot.value).or before

theorem records_append (time : Timestamp) (before : Option StateValue)
    (steps more : List (Macrostep C)) :
    records time before (steps ++ more) =
      records time before steps ++ records time (lastValue before steps) more := by
  induction steps generalizing before with
  | nil => rfl
  | cons step steps ih =>
    have hlast : lastValue before (step :: steps) = lastValue (some step.snapshot.value) steps := by
      cases steps <;> simp [lastValue, List.getLast?_cons]
    rw [List.cons_append, records, records, ih, hlast]
    split <;> rfl

end Macrostep

namespace Machine

variable [BEq C] {m : Machine C E A} {mode : Mode} {s : Snapshot C} {event : Event}

/-- The macrosteps of a row of events, from a snapshot on. -/
def macrostepsFrom (m : Machine C E A) (mode : Mode) (s : Snapshot C) :
    List Event → Except Failure (List (Macrostep C))
  | [] => return []
  | event :: rest => do
    let step ← (m.step s event mode).result
    return step :: (← macrostepsFrom m mode step.snapshot rest)

/-- The macrosteps of a row of events, the start first. -/
def macrosteps (m : Machine C E A) (mode : Mode) (events : List Event) :
    Except Failure (List (Macrostep C)) := do
  let step ← (m.startStep mode).result
  return step :: (← m.macrostepsFrom mode step.snapshot events)

theorem macrostepsFrom_cons {events : List Event} {steps : List (Macrostep C)} :
    m.macrostepsFrom mode s (event :: events) = .ok steps ↔
      ∃ step rest, (m.step s event mode).result = .ok step ∧
        m.macrostepsFrom mode step.snapshot events = .ok rest ∧ steps = step :: rest := by
  simp only [macrostepsFrom, bind_ok, pure_ok]
  exact ⟨fun ⟨step, hs, rest, hr, he⟩ => ⟨step, rest, hs, hr, he.symm⟩,
    fun ⟨step, rest, hs, hr, he⟩ => ⟨step, hs, rest, hr, he.symm⟩⟩

theorem macrosteps_ok {events : List Event} {steps : List (Macrostep C)} :
    m.macrosteps mode events = .ok steps ↔
      ∃ step rest, (m.startStep mode).result = .ok step ∧
        m.macrostepsFrom mode step.snapshot events = .ok rest ∧ steps = step :: rest := by
  simp only [macrosteps, bind_ok, pure_ok]
  exact ⟨fun ⟨step, hs, rest, hr, he⟩ => ⟨step, rest, hs, hr, he.symm⟩,
    fun ⟨step, rest, hs, hr, he⟩ => ⟨step, hs, rest, hr, he.symm⟩⟩

/-- A macrostep that succeeds in the live mode is the same when it is replayed. -/
theorem step_replay_of_ok {step : Macrostep C} (h : (m.step s event .live).result = .ok step) :
    (m.step s event .replay).result = .ok step := by
  rcases m.step_replay s event with he | ⟨failure, he, -⟩
  · exact he ▸ h
  · rw [h] at he; cases he

theorem startStep_replay_of_ok {step : Macrostep C} (h : (m.startStep .live).result = .ok step) :
    (m.startStep .replay).result = .ok step := by
  rcases m.startStep_replay with he | ⟨failure, he, -⟩
  · exact he ▸ h
  · rw [h] at he; cases he

theorem replayFrom_of_macrosteps : ∀ {events : List Event} {s : Snapshot C}
    {steps : List (Macrostep C)}, m.macrostepsFrom .live s events = .ok steps →
    m.replayFrom s events = .ok (s :: steps.map Macrostep.snapshot)
  | [], s, steps, h => by cases h; rfl
  | event :: events, s, steps, h => by
    obtain ⟨step, rest, hs, hrest, rfl⟩ := macrostepsFrom_cons.mp h
    have ht : m.transition s event = .ok step.snapshot :=
      map_ok.mpr ⟨step, step_replay_of_ok hs, rfl⟩
    rw [replayFrom, ht]
    simp [bind, Except.bind, replayFrom_of_macrosteps hrest, pure, Except.pure]

/-- Replaying the events of macrosteps that succeed goes through their snapshots. -/
theorem replay_of_macrosteps {events : List Event} {steps : List (Macrostep C)}
    (h : m.macrosteps .live events = .ok steps) :
    m.replay events = .ok (steps.map Macrostep.snapshot) := by
  obtain ⟨step, rest, hs, hrest, rfl⟩ := macrosteps_ok.mp h
  have hi : m.initial = .ok step.snapshot := map_ok.mpr ⟨step, startStep_replay_of_ok hs, rfl⟩
  rw [replay, hi]
  exact replayFrom_of_macrosteps hrest

/-! ## What macrosteps ask for -/

/-- All commands are deliveries to actors. -/
def SendsOnly (commands : List Command) : Prop :=
  ∀ command ∈ commands, ∃ actor event, command = .sendTo actor event

theorem sendsOnly_nil : SendsOnly [] := fun _ hmem => absurd hmem List.not_mem_nil

omit [BEq C] in
theorem SendsOnly.phases (hc : m.chart.SelfContained) {commands : List Command}
    (h : SendsOnly commands) (phases : List Phase) :
    SendsOnly (commands ++ phases.flatMap (Phase.commands m.chart)) := by
  intro command hmem
  rcases List.mem_append.mp hmem with hmem | hmem
  · exact h command hmem
  · obtain ⟨p, -, hp⟩ := List.mem_flatMap.mp hmem
    -- Entering and leaving a state asks for nothing, so this is from an action.
    have hactions : command ∈ (p.actions m.chart).filterMap Action.request? := by
      cases p <;> simpa [Phase.commands, Command.onEntry, Command.onExit, hc.invoke, hc.after]
        using hp
    obtain ⟨action, -, hrequest⟩ := List.mem_filterMap.mp hactions
    cases action with
    | sendTo actor event => exact ⟨actor, event, (Option.some.inj hrequest).symm⟩
    | named name => cases hrequest
    | raise raised => cases hrequest

/-- An execution that asks for nothing but deliveries, whatever its phases are. -/
def Sending (x : Execution C E) (_ : List Phase) : Prop := SendsOnly x.commands

omit [BEq C] in
theorem keeps_sending (hc : m.chart.SelfContained) : m.Keeps Sending := by
  intro x y phases mode transitions handled event trigger internal hx _ h
  rw [Sending, (Execution.microstep_written h).commands]
  exact SendsOnly.phases hc hx _

theorem sendsOnly_of_start (hc : m.chart.SelfContained) {step : Macrostep C}
    (h : (m.startStep mode).result = .ok step) : SendsOnly step.commands := by
  obtain ⟨y, hy, hyields⟩ := startStep_phases (P := Sending) (keeps_sending hc) (fun hx => by
    rw [Sending, (Execution.enterInitial_written hx).commands]
    exact SendsOnly.phases hc sendsOnly_nil _) h
  exact hyields.commands ▸ hy

theorem sendsOnly_of_step (hc : m.chart.SelfContained) {step : Macrostep C}
    (h : (m.step s event mode).result = .ok step) : SendsOnly step.commands := by
  have hs : Sending (execution s : Execution C E) [] := sendsOnly_nil
  obtain ⟨y, hy, hyields, -⟩ := step_phases (P := Sending) (keeps_sending hc) hs h
  exact hyields.commands ▸ hy

end Machine

end Statechart
