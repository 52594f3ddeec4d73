import Statechart.Proofs.Macrostep.Phases

/-!
# Steps that report no change

A step reports a change if it leads to another configuration or another context, or if an
action was run. So a step that reports none has shown nothing and has changed no more than what
history states remember. Yet it can have left states and entered them again, and with them their
timers and their actors (`alarm_starts_over`): its commands are those of the states that it went
through, and it is sure to have none only if it left and entered no state.

* `recordHistory_keeps`: what taking notes does to the history.
* `Progress.microstep`: what microsteps have done so far.
* `Reachable.uneventful`: a step that reports no change.
-/
namespace Statechart

namespace Phase

/-- The move of a phase, if it leaves or enters a state. -/
def move? : Phase → Option Move
  | .exit n => some (.exit n)
  | .act _ => none
  | .enter n => some (.enter n)

/-- The names under which a phase takes notes: those of the history states in the state that is
left. -/
def notes (c : Chart) : Phase → List String
  | .exit n =>
    ((c.node n).children.filter fun k => (c.node k).history.isSome).map fun k => (c.node k).id
  | _ => []

end Phase

/-! ## What phases do without actions -/

/-- Without actions the commands are those of the states that are left and entered. -/
theorem commands_of_idle {c : Chart} {phases : List Phase}
    (h : phases.flatMap (Phase.actions c) = []) :
    phases.flatMap (Phase.commands c) =
      (phases.filterMap Phase.move?).flatMap (Move.commands c) := by
  induction phases with
  | nil => rfl
  | cons p phases ih =>
    rw [List.flatMap_cons, List.append_eq_nil_iff] at h
    rw [List.flatMap_cons, ih h.2, List.filterMap_cons]
    cases p <;> simp [Phase.commands, h.1, Phase.move?, Move.commands]

/-! ## Notes -/

namespace Execution

variable {C E A : Type} {c : Chart} {x : Execution C E}

/-- What each note keeps, all notes of a microstep keep. -/
theorem recordHistory_keeps {P : Dict (List Nat) → Prop} {exits : NodeSet}
    (hnote : ∀ n ∈ exits, ∀ name ∈ (Phase.exit n).notes c, ∀ history states,
      P history → P (history.insert name states)) (hx : P x.history) :
    P (recordHistory c exits x).history := by
  refine List.foldlRecOn exits.toList _ hx fun history hh n hn => ?_
  refine List.foldlRecOn (c.node n).children _ hh fun history hh k hk => ?_
  split
  · exact hh
  · rename_i mode hmode
    refine hnote n hn _ (List.mem_map.mpr ⟨k, List.mem_filter.mpr ⟨hk, ?_⟩, rfl⟩) _ _ hh
    rw [hmode]; rfl

theorem mem_phases_exit {transitions : List Nat} {n : Nat} :
    .exit n ∈ x.phases c transitions ↔ n ∈ c.exitSet x.configuration transitions := by
  simp [phases, NodeSet.mem_def]

end Execution

namespace Machine

variable {C E A : Type} {m : Machine C E A} {mode : Mode} {event : Event} {s : Snapshot C}
  {phases : List Phase}

/-- What phases have come to that began at a snapshot. -/
structure Progress (c : Chart) (s : Snapshot C) (x : Execution C E) (phases : List Phase) :
    Prop where
  labels : x.actions = phases.flatMap (Phase.labels c)
  commands : x.commands = phases.flatMap (Phase.commands c)
  configuration : x.configuration = phases.foldl Phase.apply s.configuration
  /-- Without actions there are neither effects nor a new context. -/
  idle : phases.flatMap (Phase.actions c) = [] → x.context = s.context ∧ x.effects = []
  /-- What is left was active, or was entered. -/
  left : ∀ n, .exit n ∈ phases → n ∈ s.configuration ∨ .enter n ∈ phases
  /-- What is remembered under other names than those of the notes is the same. -/
  noted : ∀ name ∉ phases.flatMap (Phase.notes c), x.history.get? name = s.history.get? name
  forgotten : phases.flatMap (Phase.notes c) = [] → x.history = s.history

theorem progress_nil (c : Chart) (s : Snapshot C) :
    Progress c s (execution s : Execution C E) [] where
  labels := rfl
  commands := rfl
  configuration := rfl
  idle _ := ⟨rfl, rfl⟩
  left _ hn := absurd hn List.not_mem_nil
  noted _ _ := rfl
  forgotten _ := rfl

theorem mem_notes_phases {c : Chart} {x : Execution C E} {transitions : List Nat} {n : Nat}
    {name : String} (hn : n ∈ c.exitSet x.configuration transitions)
    (hname : name ∈ (Phase.exit n).notes c) :
    name ∈ (x.phases c transitions).flatMap (Phase.notes c) :=
  List.mem_flatMap.mpr ⟨_, Execution.mem_phases_exit.mpr hn, hname⟩

/-- A microstep goes on with what was done before. -/
theorem Progress.microstep {c : Chart} {r : Registry C E A} {x y : Execution C E}
    {transitions : List Nat} (h : Progress c s x phases)
    (hm : Execution.microstep c r mode transitions event x = .ok y) :
    Progress c s y (phases ++ x.phases c transitions) := by
  have hw := Execution.microstep_written hm
  obtain ⟨entries, -, hmoved⟩ := Execution.microstep_spec hm
  have hhistory : y.history =
      (Execution.recordHistory c (c.exitSet x.configuration transitions) x).history := hmoved.history
  exact {
    labels := by rw [hw.actions, h.labels, List.flatMap_append]
    commands := by rw [hw.commands, h.commands, List.flatMap_append]
    configuration := by rw [hw.configuration, h.configuration, List.foldl_append]
    idle := fun hnone => by
      rw [List.flatMap_append, List.append_eq_nil_iff] at hnone
      obtain ⟨hcontext, heffects⟩ := h.idle hnone.1
      obtain ⟨hcontext', heffects'⟩ := hw.idle hnone.2
      exact ⟨hcontext'.trans hcontext, heffects'.trans heffects⟩
    left := fun n hn => by
      rw [List.mem_append] at hn ⊢
      rcases hn with hn | hn
      · exact (h.left n hn).imp_right .inl
      · by_cases henter : .enter n ∈ phases
        · exact .inr (.inl henter)
        · -- not entered before, so active from the beginning
          have hactive := (Chart.mem_exitSet.mp (Execution.mem_phases_exit.mp hn)).1
          rw [h.configuration, mem_foldl_of_not_enter henter] at hactive
          exact .inl hactive.1
    noted := fun name hname => by
      rw [List.flatMap_append, List.mem_append, not_or] at hname
      rw [hhistory]
      refine Execution.recordHistory_keeps (P := fun history =>
        history.get? name = s.history.get? name) (fun n hn other hother history states hh => ?_)
        (h.noted name hname.1)
      have hne : name ≠ other := fun e => hname.2 (mem_notes_phases hn (e ▸ hother))
      rw [Dict.get?_insert_of_ne hne]
      exact hh
    forgotten := fun hnone => by
      rw [List.flatMap_append, List.append_eq_nil_iff] at hnone
      rw [hhistory]
      refine Execution.recordHistory_keeps (P := fun history => history = s.history)
        (fun n hn other hother history states hh => ?_) (h.forgotten hnone.1)
      have hmem := mem_notes_phases hn hother
      rw [hnone.2] at hmem
      exact absurd hmem List.not_mem_nil }

theorem keeps_progress (m : Machine C E A) (s : Snapshot C) :
    m.Keeps (Progress (E := E) m.chart s) := by
  intro x y phases mode transitions handled event trigger internal hx _ hm
  obtain ⟨hlabels, hcommands, hconfiguration, hidle, hleft, hnoted, hforgotten⟩ := hx
  exact Progress.microstep (x := { x with internal })
    ⟨hlabels, hcommands, hconfiguration, hidle, hleft, hnoted, hforgotten⟩ hm

/-! ## Steps -/

variable [BEq C] {step : Macrostep C}

/-- A step that reports no change has led to the same configuration without any action. -/
theorem step_of_not_changed (h : (m.step s event mode).result = .ok step)
    (hc : step.snapshot.changed = false) :
    step.snapshot.configuration = s.configuration ∧ step.snapshot.actions = [] := by
  rcases step_ok h with rfl | ⟨transitions, x, y, -, -, -, rfl⟩
  · exact ⟨rfl, rfl⟩
  · have hunchanged : hasChanged s y = false := hc
    simp only [hasChanged, Bool.or_eq_false_iff, bne_eq_false_iff_eq, Bool.not_eq_false',
      List.isEmpty_iff] at hunchanged
    exact ⟨hunchanged.1.1.symm, hunchanged.2⟩

/-- What a step that reports no change has done. -/
structure Uneventful (m : Machine C E A) (mode : Mode) (s : Snapshot C) (event : Event)
    (step : Macrostep C) : Prop where
  value : step.snapshot.value = s.value
  configuration : step.snapshot.configuration = s.configuration
  context : step.snapshot.context = s.context
  done : step.snapshot.done = s.done
  /-- No action was run, and none was to be run in any phase. -/
  labels : step.snapshot.actions = []
  idle : ∀ p ∈ m.stepPhases mode s event, p.actions m.chart = []
  effects : (m.step s event mode).effects = []
  /-- The commands are those of the states that were left and entered: no actor is sent anything. -/
  commands : step.commands =
    ((m.stepPhases mode s event).filterMap Phase.move?).flatMap (Move.commands m.chart)
  /-- Every state that was left was entered again. -/
  back : ∀ n, .exit n ∈ m.stepPhases mode s event → .enter n ∈ m.stepPhases mode s event
  /-- Only history states in states that were left remember anything else. -/
  noted : ∀ name ∉ (m.stepPhases mode s event).flatMap (Phase.notes m.chart),
    step.snapshot.history.get? name = s.history.get? name
  /-- If no state was left or entered, nothing was asked for and nothing is remembered anew. -/
  still : (m.stepPhases mode s event).filterMap Phase.move? = [] →
    step.commands = [] ∧ step.snapshot.history = s.history

/-- A step that reports no change has done nothing but leave states and enter them again. -/
theorem Reachable.uneventful (hr : m.Reachable s) (h : (m.step s event mode).result = .ok step)
    (hc : step.snapshot.changed = false) : Uneventful m mode s event step := by
  obtain ⟨hconfiguration, hlabels⟩ := step_of_not_changed h hc
  obtain ⟨hvalue, hdone⟩ := hr.shown
  obtain ⟨hvalue', hdone'⟩ := (hr.step h).shown
  obtain ⟨y, hy, hyields, heffects⟩ := step_phases (keeps_progress m s) (progress_nil m.chart s) h
  rw [List.nil_append] at hy
  have hidle : (m.stepPhases mode s event).flatMap (Phase.actions m.chart) = [] := by
    have hnone : (m.stepPhases mode s event).flatMap (Phase.labels m.chart) = [] := by
      rw [← hy.labels, ← hyields.actions, hlabels]
    simpa [Phase.labels] using hnone
  have hcommands : step.commands =
      ((m.stepPhases mode s event).filterMap Phase.move?).flatMap (Move.commands m.chart) := by
    rw [hyields.commands, hy.commands, commands_of_idle hidle]
  obtain ⟨hcontext, hnoeffects⟩ := hy.idle hidle
  exact {
    value := by rw [hvalue', hconfiguration, hvalue]
    configuration := hconfiguration
    context := hyields.context.trans hcontext
    done := by rw [hdone', hconfiguration, hdone]
    labels := hlabels
    idle := List.flatMap_eq_nil_iff.mp hidle
    effects := heffects.trans hnoeffects
    commands := hcommands
    back := fun n hn => by
      by_contra henter
      -- not entered, so active before, and active afterwards as the configuration is the same
      have hactive := (hy.left n hn).resolve_right henter
      rw [← hconfiguration, hyields.configuration, hy.configuration,
        mem_foldl_of_not_enter henter] at hactive
      exact hactive.2 hn
    noted := fun name hname => by rw [hyields.history]; exact hy.noted name hname
    still := fun hstill => by
      refine ⟨by rw [hcommands, hstill]; rfl, hyields.history.trans (hy.forgotten ?_)⟩
      refine List.flatMap_eq_nil_iff.mpr fun p hp => ?_
      have hmove := List.filterMap_eq_nil_iff.mp hstill p hp
      cases p with
      | exit n => cases hmove
      | act t => rfl
      | enter n => rfl }

/-- An alarm that rings some time after it was set or put off. Its dial glows until then. -/
def alarm : Definition := {
  key := "alarm"
  initial := some "set"
  states := [
    { key := "set"
      on := [⟨"SNOOZE", [{ target := ["set"], reenter := true }]⟩]
      after := [⟨540, [{ target := ["ringing"] }]⟩]
      invoke := [{ id := some "glow", src := "dial" }] },
    { key := "ringing" }] }

/-- What the dial shows is not modelled. -/
def dials : Registry Unit Unit Unit where
  actors := [("dial",
    ⟨fun _ => (), fun _ _ => ⟨(), []⟩, fun _ _ _ => ⟨(), []⟩, fun _ _ => ⟨(), []⟩⟩)]

def alarmMachine : Machine Unit Unit Unit := buildD dials () 10 alarm

/-- The alarm is put off: it will ring later than it would have, and its dial is turned off and on
again, but the step reports no change. -/
theorem snoozed_alarm : ∃ s step, alarmMachine.Reachable s ∧
    (alarmMachine.step s { type := "SNOOZE" } .live).result = .ok step ∧
    step.snapshot.changed = false ∧
    step.commands = [.cancelTimers 1, .stopActor "glow",
      .schedule 1 { type := "after(540)#alarm.set" } 540, .invoke 1 "glow" "dial"] := by
  have hrun : (match (do
      let a ← (alarmMachine.startStep .live).result
      let b ← (alarmMachine.step a.snapshot { type := "SNOOZE" } .live).result
      return (a, b)) with
    | .error _ => false
    | .ok (_, b) => b.snapshot.changed = false ∧
        b.commands = [.cancelTimers 1, .stopActor "glow",
          .schedule 1 { type := "after(540)#alarm.set" } 540, .invoke 1 "glow" "dial"]) =
      true := by decide +kernel
  split at hrun
  · cases hrun
  · rename_i a b hok
    simp only [bind_ok, pure_ok, Prod.mk.injEq] at hok
    obtain ⟨a, ha, b, hb, rfl, rfl⟩ := hok
    exact ⟨_, _, .start ha, hb, of_decide_eq_true hrun⟩

/-- A step that reports no change can start timers and actors over. -/
theorem alarm_starts_over : build dials () 10 alarm = .ok alarmMachine ∧
    ¬ ∀ s event mode step, alarmMachine.Reachable s →
      (alarmMachine.step s event mode).result = .ok step →
      step.snapshot.changed = false → step.commands = [] := by
  refine ⟨build_eq_buildD (by decide +kernel), fun hall => ?_⟩
  obtain ⟨s, step, hr, hs, hc, hcommands⟩ := snoozed_alarm
  rw [hall s _ _ step hr hs hc] at hcommands
  cases hcommands

/-- The alarm was left to be entered again, and has not done anything else. -/
theorem uneventful_alarm : ∃ s step, alarmMachine.Reachable s ∧
    (alarmMachine.step s { type := "SNOOZE" } .live).result = .ok step ∧
    step.snapshot.changed = false ∧ step.commands ≠ [] ∧
    Uneventful alarmMachine .live s { type := "SNOOZE" } step := by
  obtain ⟨s, step, hr, hs, hc, hcommands⟩ := snoozed_alarm
  exact ⟨s, step, hr, hs, hc, by rw [hcommands]; exact List.cons_ne_nil _ _,
    Reachable.uneventful hr hs hc⟩

end Machine

end Statechart
