import Statechart.Machine
import Statechart.Proofs.Chart.Keys
import Statechart.Proofs.Execution

/-!
# The run of a macrostep

A macrostep is a first microstep and then a loop. Each round of the loop asks what to take
next (`next?`), looks whether the same was taken in the same situation before, and takes it
(`take`). The lemmas here open the loop one round at a time, so that nothing else has to.

* `stabilize_eq`: one round.
* `rounds_stabilize`: all rounds of a loop, for inductions over them.
* `stabilize_invariant`: what every microstep keeps, the loop keeps.
* `startStep_ok`, `step_ok`: what a macrostep that succeeds has done.
* `startStep_moving`, `step_moving`: its commands are those of moves.
* `step_congr`: what a macrostep depends on.
* `Reachable`: the snapshots that macrosteps lead to.
-/
namespace Statechart.Machine

variable {C E A : Type} {m : Machine C E A} {mode : Mode} {trigger current : Event}
  {x y : Execution C E}

section Built

variable {registry : Registry C E A} {context : C} {maxMicrosteps : Nat} {d : Definition}
  (hb : build registry context maxMicrosteps d = .ok m)
include hb

theorem chart_of_build : Chart.build registry.names d = .ok m.chart := by
  simp only [build, bind_ok, pure_ok] at hb
  obtain ⟨c, hc, rfl⟩ := hb
  exact hc

theorem registry_of_build : m.registry = registry := by
  simp only [build, bind_ok, pure_ok] at hb
  obtain ⟨c, -, rfl⟩ := hb
  rfl

theorem accepted_of_build : m.chart.Accepted registry.names :=
  Chart.accepted_of_build (chart_of_build hb)

theorem keyed_of_build : m.chart.Keyed := Chart.keyed_of_build (chart_of_build hb)

end Built

/-- The machine for a definition; one without states if it is not accepted. -/
def buildD (registry : Registry C E A) (context : C) (maxMicrosteps : Nat) (d : Definition) :
    Machine C E A :=
  (build registry context maxMicrosteps d).toOption.getD
    ⟨⟨#[], #[], []⟩, registry, context, maxMicrosteps⟩

theorem build_eq_buildD {registry : Registry C E A} {context : C} {maxMicrosteps : Nat}
    {d : Definition} (h : (build registry context maxMicrosteps d).isOk = true) :
    build registry context maxMicrosteps d = .ok (buildD registry context maxMicrosteps d) :=
  ok_of_isOk _ h

/-- What to take next; nothing if the root has completed. -/
def next? (m : Machine C E A) (current : Event) (x : Execution C E) : Attempt E (Option Choice) :=
  if m.isDone x.configuration then .ok none
  else x.attempt (m.choose x.configuration x.context current x.internal)

def momentOf (x : Execution C E) (choice : Choice) : Moment C :=
  ⟨choice.transitions, x.configuration, x.context, x.history, choice.internal⟩

def take (m : Machine C E A) (mode : Mode) (x : Execution C E) (choice : Choice) :
    Attempt E (Execution C E) :=
  Execution.microstep m.chart m.registry mode choice.transitions choice.event
    { x with internal := choice.internal }

/-- One round of the loop. -/
theorem stabilize_eq [BEq C] (m : Machine C E A) (mode : Mode) (trigger : Event) (budget : Nat)
    (seen : List (Moment C)) (current : Event) (x : Execution C E) :
    m.stabilize mode trigger budget seen current x = (do
      match ← m.next? current x with
      | none => .ok x
      | some choice =>
        if seen.any (momentOf x choice).same then x.fail (m.cycleFailure trigger (momentOf x choice))
        else match budget with
          | 0 => x.fail (.microstepLimit trigger.type m.maxMicrosteps)
          | budget + 1 => do
            let y ← m.take mode x choice
            m.stabilize mode trigger budget (momentOf x choice :: seen) choice.event y) := by
  rw [stabilize, next?]
  split
  · rfl
  · rfl

theorem select_of_choose {configuration : NodeSet} {context : C} {choice : Choice} :
    ∀ {internal : List Event} {current : Event},
      m.choose configuration context current internal = .ok (some choice) →
      ∃ event trigger,
        m.registry.select m.chart configuration context event trigger = .ok choice.transitions
  | [], current, h => by
    simp only [choose, bind_ok, pure_ok] at h
    obtain ⟨eventless, hs, h⟩ := h
    split at h
    · cases h
    · cases h; exact ⟨_, _, hs⟩
  | raised :: rest, current, h => by
    simp only [choose, bind_ok] at h
    obtain ⟨eventless, hs, h⟩ := h
    split at h
    · cases h; exact ⟨_, _, hs⟩
    · rw [bind_ok] at h
      obtain ⟨selected, hsel, h⟩ := h
      split at h
      · cases h; exact ⟨_, _, hsel⟩
      · exact select_of_choose h

theorem attempt_ok {α : Type} {result : Except Failure α} {a : α} :
    x.attempt result = .ok a ↔ result = .ok a := by
  unfold Execution.attempt
  cases result <;> simp [Except.mapError]

theorem next?_ok {choice : Choice} (h : m.next? current x = .ok (some choice)) :
    m.choose x.configuration x.context current x.internal = .ok (some choice) := by
  unfold next? at h
  split at h
  · cases h
  · exact attempt_ok.mp h

/-- The rounds of a loop, from its first to what it comes to. -/
inductive Rounds [BEq C] (m : Machine C E A) (mode : Mode) (trigger : Event) :
    Nat → List (Moment C) → Event → Execution C E → Attempt E (Execution C E) → Prop
  | failed {budget seen current x halt} (hn : m.next? current x = .error halt) :
      Rounds m mode trigger budget seen current x (.error halt)
  | ended {budget seen current x} (hn : m.next? current x = .ok none) :
      Rounds m mode trigger budget seen current x (.ok x)
  | cycle {budget seen current x choice} (hn : m.next? current x = .ok (some choice))
      (hs : seen.any (momentOf x choice).same = true) :
      Rounds m mode trigger budget seen current x
        (x.fail (m.cycleFailure trigger (momentOf x choice)))
  | limit {seen current x choice} (hn : m.next? current x = .ok (some choice))
      (hs : seen.any (momentOf x choice).same = false) :
      Rounds m mode trigger 0 seen current x
        (x.fail (.microstepLimit trigger.type m.maxMicrosteps))
  | halted {budget seen current x choice halt} (hn : m.next? current x = .ok (some choice))
      (hs : seen.any (momentOf x choice).same = false) (ht : m.take mode x choice = .error halt) :
      Rounds m mode trigger (budget + 1) seen current x (.error halt)
  | took {budget seen current x choice y result} (hn : m.next? current x = .ok (some choice))
      (hs : seen.any (momentOf x choice).same = false) (ht : m.take mode x choice = .ok y)
      (hl : Rounds m mode trigger budget (momentOf x choice :: seen) choice.event y result) :
      Rounds m mode trigger (budget + 1) seen current x result

/-- The loop goes through its rounds. -/
theorem rounds_stabilize [BEq C] (m : Machine C E A) (mode : Mode) (trigger : Event) :
    ∀ (budget : Nat) (seen : List (Moment C)) (current : Event) (x : Execution C E),
      Rounds m mode trigger budget seen current x
        (m.stabilize mode trigger budget seen current x) := by
  intro budget
  induction budget with
  | zero =>
    intro seen current x
    rw [stabilize_eq]
    cases hn : m.next? current x with
    | error halt => exact .failed hn
    | ok next =>
      cases next with
      | none => exact .ended hn
      | some choice =>
        simp only [bind, Except.bind]
        split
        · rename_i hs; exact .cycle hn hs
        · rename_i hs; exact .limit hn (Bool.not_eq_true _ ▸ hs)
  | succ budget ih =>
    intro seen current x
    rw [stabilize_eq]
    cases hn : m.next? current x with
    | error halt => exact .failed hn
    | ok next =>
      cases next with
      | none => exact .ended hn
      | some choice =>
        simp only [bind, Except.bind]
        split
        · rename_i hs; exact .cycle hn hs
        · rename_i hs
          have hs : seen.any (momentOf x choice).same = false := Bool.not_eq_true _ ▸ hs
          cases ht : m.take mode x choice with
          | error halt => exact .halted hn hs ht
          | ok y => exact .took hn hs ht (ih _ _ _)

/-- What every microstep keeps, the loop keeps. -/
theorem stabilize_invariant [BEq C] {P : Execution C E → Prop}
    (hstep : ∀ x y choice event trigger, P x →
      m.registry.select m.chart x.configuration x.context event trigger = .ok choice.transitions →
      m.take mode x choice = .ok y → P y) {budget : Nat} {seen : List (Moment C)}
    {current : Event} {x y : Execution C E} (hx : P x)
    (h : m.stabilize mode trigger budget seen current x = .ok y) : P y := by
  have hr := m.rounds_stabilize mode trigger budget seen current x
  rw [h] at hr
  clear h
  generalize hy : (.ok y : Attempt E (Execution C E)) = result at hr
  induction hr with
  | failed => cases hy
  | ended => cases hy; exact hx
  | cycle => cases hy
  | limit => cases hy
  | halted => cases hy
  | took hn _ ht _ ih =>
    obtain ⟨event, trigger, hs⟩ := select_of_choose (next?_ok hn)
    exact ih (hstep _ _ _ event trigger hx hs ht) hy

/-! ## Macrosteps -/

theorem outcome_ok {finish : Execution C E → Macrostep C} {attempt : Attempt E (Execution C E)}
    {step : Macrostep C} (h : (outcome finish attempt).result = .ok step) :
    ∃ y, attempt = .ok y ∧ step = finish y := by
  cases attempt with
  | error halt => cases h
  | ok y => cases h; exact ⟨y, rfl, rfl⟩

/-- A start that succeeds is an entry of the initial configuration and the loop. -/
theorem startStep_ok [BEq C] {step : Macrostep C} (h : (m.startStep mode).result = .ok step) :
    ∃ x y,
      Execution.enterInitial m.chart m.registry mode .init
        { configuration := ∅, context := m.context, history := [] } = .ok x ∧
      m.settle mode .init x = .ok y ∧ step = m.finish .init (m.isDone y.configuration) true y := by
  obtain ⟨y, hy, rfl⟩ := outcome_ok h
  rw [runStart, bind_ok] at hy
  obtain ⟨x, hx, hy⟩ := hy
  exact ⟨x, y, hx, hy, rfl⟩

/-- A step that succeeds makes no difference, or is a microstep of selected transitions and
the loop. -/
theorem step_ok [BEq C] {s : Snapshot C} {event : Event} {step : Macrostep C}
    (h : (m.step s event mode).result = .ok step) :
    step = unchanged s event ∨ ∃ transitions x y,
      m.registry.select m.chart s.configuration s.context event .event = .ok transitions ∧
      Execution.microstep m.chart m.registry mode transitions event (execution s) = .ok x ∧
      m.settle mode event x = .ok y ∧
      step = m.finish event (m.isDone y.configuration) (hasChanged s y) y := by
  unfold Machine.step at h
  split at h
  · cases h; exact .inl rfl
  · split at h
    · cases h
    · cases h; exact .inl rfl
    · rename_i transitions _ hsel
      obtain ⟨y, hy, rfl⟩ := outcome_ok h
      rw [runStep, bind_ok] at hy
      obtain ⟨x, hx, hy⟩ := hy
      exact .inr ⟨transitions, x, y, hsel, hx, hy, rfl⟩

theorem stabilize_moving [BEq C] {budget : Nat} {seen : List (Moment C)} (hx : x.Moving m.chart)
    (h : m.stabilize mode trigger budget seen current x = .ok y) : y.Moving m.chart := by
  refine stabilize_invariant (fun x y choice _ _ hx _ ht => ?_) hx h
  obtain ⟨entries, -, hm⟩ := Execution.microstep_spec ht
  exact hm.moving hx

/-- The commands of a start are those of moves. -/
theorem startStep_moving [BEq C] {step : Macrostep C} (h : (m.startStep mode).result = .ok step) :
    ∃ moves, Trail m.chart moves step.commands := by
  obtain ⟨x, y, hx, hy, rfl⟩ := startStep_ok h
  obtain ⟨entries, -, hm⟩ := Execution.enterInitial_spec hx
  exact stabilize_moving (hm.moving ⟨[], .nil⟩) hy

/-- The commands of a step are those of moves. -/
theorem step_moving [BEq C] {s : Snapshot C} {event : Event} {step : Macrostep C}
    (h : (m.step s event mode).result = .ok step) :
    ∃ moves, Trail m.chart moves step.commands := by
  rcases step_ok h with rfl | ⟨transitions, x, y, -, hx, hy, rfl⟩
  · exact ⟨[], .nil⟩
  · obtain ⟨entries, -, hm⟩ := Execution.microstep_spec hx
    exact stabilize_moving (hm.moving ⟨[], .nil⟩) hy

/-- A macrostep does not look at the event and the labels of the snapshot that it begins at. -/
theorem step_congr [BEq C] {s t : Snapshot C} (hvalue : s.value = t.value)
    (hconfiguration : s.configuration = t.configuration)
    (hcontext : s.context = t.context) (hhistory : s.history = t.history) (hdone : s.done = t.done)
    (event : Event) (mode : Mode) : m.step s event mode = m.step t event mode := by
  cases s
  cases t
  cases hvalue
  cases hconfiguration
  cases hcontext
  cases hhistory
  cases hdone
  rfl

/-! ## Reachable snapshots -/

section Reachable

variable [BEq C]

/-- The snapshots that a machine returns: after the start, and after each further event. -/
inductive Reachable (m : Machine C E A) : Snapshot C → Prop
  | start {mode : Mode} {step : Macrostep C} (h : (m.startStep mode).result = .ok step) :
      Reachable m step.snapshot
  | step {s : Snapshot C} {event : Event} {mode : Mode} {step : Macrostep C}
      (hs : Reachable m s) (h : (m.step s event mode).result = .ok step) :
      Reachable m step.snapshot

theorem reachable_of_initial {s : Snapshot C} (h : m.initial = .ok s) : m.Reachable s := by
  obtain ⟨step, hs, rfl⟩ := map_ok.mp h
  exact .start hs

theorem Reachable.transition {s t : Snapshot C} {event : Event} (hr : m.Reachable s)
    (h : m.transition s event = .ok t) : m.Reachable t := by
  obtain ⟨step, hs, rfl⟩ := map_ok.mp h
  exact hr.step hs

/-- A snapshot shows its configuration and whether the root has completed in it. -/
theorem Reachable.shown {s : Snapshot C} (hr : m.Reachable s) :
    s.value = .ofConfiguration m.chart Chart.root s.configuration ∧
      s.done = m.isDone s.configuration := by
  induction hr with
  | start hs =>
    obtain ⟨x, y, -, -, rfl⟩ := startStep_ok hs
    exact ⟨rfl, rfl⟩
  | step _ hs ih =>
    rcases step_ok hs with rfl | ⟨transitions, x, y, -, -, -, rfl⟩
    · exact ih
    · exact ⟨rfl, rfl⟩

end Reachable

end Statechart.Machine
