import Statechart.Proofs.Bounds.Microstep
import Statechart.Proofs.Macrostep.Failures
import Statechart.Proofs.Session.Follows

/-!
# Macrosteps, number by number

Whole macrosteps with every state and transition looked up that they need, failures and their
messages included. What a machine comes to that was built from an accepted definition is what it
comes to in this way: on no way through starts, steps and exits does it ask for a number that is
not in its tables. And because every name is registered, no macrostep fails for the lack of one,
and no command asks for an actor that there is no source for.

* `startStep?_agrees`, `step?_agrees`, `exitStep?_agrees`: single macrosteps.
* `Visited.inChart`: what snapshots refer to.
* `never_dangles`: all macrosteps of all runs.
-/
namespace Statechart

open Lookup

variable {C E A : Type}

/-- The active states and those that are remembered are states of the chart. -/
structure Snapshot.InChart (c : Chart) (s : Snapshot C) : Prop where
  holds : c.Holds s.configuration
  recalls : c.Recalls s.history

/-- Whether a guard or an action is said not to be registered. -/
def Failure.isUnregistered : Failure → Bool
  | .guard _ _ .unregistered | .action _ _ .unregistered => true
  | _ => false

/-- A macrostep fails for the lack of no name, and there is a source for every actor that it asks
for. -/
structure Outcome.Resolved (registry : Registry C E A) (out : Outcome C E) : Prop where
  failure : ∀ failure, out.result = .error failure → failure.isUnregistered = false
  commands : ∀ step, out.result = .ok step → ∀ command ∈ step.commands, command.Known registry

def Execution.attempt? {α : Type} (x : Execution C E) (result : ExceptT Failure Option α) :
    ExceptT (Halt E) Option α :=
  .mk (result.run.map x.attempt)

theorem Execution.attempt?_gives {α : Type} {P : α → Prop} {result? : ExceptT Failure Option α}
    {result : Except Failure α} (h : Gives P result? result) (x : Execution C E) :
    Gives P (x.attempt? result?) (x.attempt result) := by
  refine ⟨?_, fun a ha => h.keeps a (Machine.attempt_ok.mp ha)⟩
  rw [attempt?, h.eq]
  rfl

namespace Machine

/-! ## The loop -/

def choose? (m : Machine C E A) (configuration : NodeSet) (context : C) (current : Event) :
    List Event → ExceptT Failure Option (Option Choice)
  | [] => do
    let eventless ← m.registry.select? m.chart configuration context current .eventless
    return if eventless.isEmpty then none else some ⟨eventless, current, []⟩
  | raised :: rest => do
    let eventless ← m.registry.select? m.chart configuration context current .eventless
    if !eventless.isEmpty then return some ⟨eventless, current, raised :: rest⟩
    let selected ← m.registry.select? m.chart configuration context raised .event
    if !selected.isEmpty then return some ⟨selected, raised, rest⟩
    choose? m configuration context raised rest

def describe? (m : Machine C E A) (t : Nat) : Option String := do
  let t ← m.chart.transition? t
  let source ← m.chart.node? t.source
  let targets ← t.targets.mapM fun n => do return (← m.chart.node? n).id
  return if t.isTargetless then source.id ++ " (targetless)"
    else source.id ++ " -> " ++ ", ".intercalate targets

def isDone? (m : Machine C E A) (configuration : NodeSet) : Option Bool :=
  m.chart.isComplete? configuration Chart.root

def cycleFailure? (m : Machine C E A) (trigger : Event) (moment : Moment C) : Option Failure := do
  let value ← StateValue.ofConfiguration? m.chart Chart.root moment.configuration
  return .cycle value trigger.type (← moment.transitions.mapM m.describe?)

def stabilize? [BEq C] (m : Machine C E A) (mode : Mode) (trigger : Event) :
    Nat → List (Moment C) → Event → Execution C E → ExceptT (Halt E) Option (Execution C E)
  | budget, seen, current, x => do
    let done ← m.isDone? x.configuration
    if done then return x
    match ← x.attempt? (m.choose? x.configuration x.context current x.internal) with
    | none => return x
    | some choice =>
      let moment : Moment C :=
        ⟨choice.transitions, x.configuration, x.context, x.history, choice.internal⟩
      if seen.any moment.same then do
        let failure ← m.cycleFailure? trigger moment
        throw ⟨failure, x.effects⟩
      else match budget with
        | 0 => throw ⟨.microstepLimit trigger.type m.maxMicrosteps, x.effects⟩
        | budget + 1 => do
          let x ← Execution.microstep? m.chart m.registry mode choice.transitions choice.event
            { x with internal := choice.internal }
          stabilize? m mode trigger budget (moment :: seen) choice.event x

def settle? [BEq C] (m : Machine C E A) (mode : Mode) (trigger : Event) (x : Execution C E) :
    ExceptT (Halt E) Option (Execution C E) :=
  m.stabilize? mode trigger (m.maxMicrosteps - x.microsteps) [] trigger x

section Loop

variable {m : Machine C E A} (h : m.chart.Closed)
include h

theorem choose?_gives {configuration : NodeSet} (hc : m.chart.Holds configuration) (context : C) :
    ∀ (internal : List Event) (current : Event),
      Gives (fun next => ∀ choice ∈ next, m.chart.Offers choice.transitions)
        (m.choose? configuration context current internal)
        (m.choose configuration context current internal)
  | [], current => by
    have hselect : Gives m.chart.Offers
        (m.registry.select? m.chart configuration context current .eventless)
        (m.registry.select m.chart configuration context current .eventless) :=
      ⟨Registry.select?_eq h hc, fun _ => Registry.select_offers h⟩
    rw [choose?, choose]
    refine hselect.bind fun eventless ht => .pure fun choice hchoice => ?_
    split at hchoice
    · cases hchoice
    · cases hchoice; exact ht
  | raised :: rest, current => by
    have hselect : ∀ event trigger, Gives m.chart.Offers
        (m.registry.select? m.chart configuration context event trigger)
        (m.registry.select m.chart configuration context event trigger) := fun event trigger =>
      ⟨Registry.select?_eq h hc, fun _ => Registry.select_offers h⟩
    rw [choose?, choose]
    refine (hselect current .eventless).bind fun eventless ht => ?_
    split
    · refine .pure fun choice hchoice => ?_
      cases hchoice; exact ht
    · refine (hselect raised .event).bind fun selected ht => ?_
      split
      · refine .pure fun choice hchoice => ?_
        cases hchoice; exact ht
      · exact choose?_gives hc context rest raised

theorem describe?_eq {t : Nat} (ht : t < m.chart.transitions.size) :
    m.describe? t = some (m.describe t) := by
  rw [describe?, describe, Chart.transition?_eq ht]
  simp only [Option.bind_eq_bind, Option.bind_some]
  rw [Chart.node?_eq (h.source t), mapM_eq (f := fun n => (m.chart.node n).id) fun n hn => by
    rw [Chart.node?_eq (h.targets t n hn)]; rfl]
  rfl

theorem isDone?_eq (configuration : NodeSet) :
    m.isDone? configuration = some (m.isDone configuration) :=
  Chart.isComplete?_eq h h.root_lt

theorem cycleFailure?_eq (trigger : Event) {moment : Moment C}
    (ht : m.chart.Offers moment.transitions) :
    m.cycleFailure? trigger moment = some (m.cycleFailure trigger moment) := by
  rw [cycleFailure?, StateValue.ofConfiguration?_eq h h.root_lt,
    mapM_eq fun t hm => describe?_eq h (ht t hm)]
  rfl

theorem stabilize?_gives [BEq C] {mode : Mode} {trigger : Event} :
    ∀ (budget : Nat) (seen : List (Moment C)) (current : Event) (x : Execution C E),
      x.InChart m.chart → Gives (Execution.InChart m.chart)
        (m.stabilize? mode trigger budget seen current x)
        (m.stabilize mode trigger budget seen current x) := by
  intro budget
  induction budget using Nat.strongRecOn with
  | ind budget ih =>
    intro seen current x hx
    rw [stabilize?, stabilize, isDone?_eq h]
    refine Gives.lift ?_
    split
    · exact .pure hx
    · refine (x.attempt?_gives (choose?_gives h hx.holds _ _ _)).bind fun next hnext => ?_
      cases next with
      | none => exact .pure hx
      | some choice =>
        have ht : m.chart.Offers choice.transitions := hnext choice rfl
        have hleft : ({ x with internal := choice.internal } : Execution C E).InChart m.chart :=
          ⟨hx.holds, hx.recalls⟩
        dsimp only
        split
        · rw [cycleFailure?_eq h trigger (by exact ht)]
          exact .lift .throw
        · cases budget with
          | zero => exact .throw
          | succ budget =>
            exact (Execution.microstep?_gives hleft h ht).bind fun y hy =>
              ih budget (Nat.lt_succ_self budget) _ _ y hy

end Loop

/-! ## Macrosteps -/

def finish? (m : Machine C E A) (event : Event) (done changed : Bool) (x : Execution C E) :
    Option (Macrostep C) := do
  let value ← StateValue.ofConfiguration? m.chart Chart.root x.configuration
  return {
    snapshot := {
      value
      configuration := x.configuration
      context := x.context
      history := x.history
      event
      actions := x.actions
      done
      changed }
    commands := x.commands
    microsteps := x.microsteps }

def outcome? (finish : Execution C E → Option (Macrostep C))
    (x : ExceptT (Halt E) Option (Execution C E)) : Option (Outcome C E) := do
  match ← x.run with
  | .ok x => return ⟨.ok (← finish x), x.effects⟩
  | .error halt => return ⟨.error halt.failure, halt.effects⟩

def runStart? [BEq C] (m : Machine C E A) (mode : Mode) :
    ExceptT (Halt E) Option (Execution C E) := do
  let x ← Execution.enterInitial? m.chart m.registry mode .init
    { configuration := ∅, context := m.context, history := [] }
  m.settle? mode .init x

def startStep? [BEq C] (m : Machine C E A) (mode : Mode) : Option (Outcome C E) :=
  outcome? (fun x => do m.finish? .init (← m.isDone? x.configuration) true x) (m.runStart? mode)

def runStep? [BEq C] (m : Machine C E A) (mode : Mode) (s : Snapshot C) (event : Event)
    (transitions : List Nat) : ExceptT (Halt E) Option (Execution C E) := do
  let x ← Execution.microstep? m.chart m.registry mode transitions event (execution s)
  m.settle? mode event x

def step? [BEq C] (m : Machine C E A) (s : Snapshot C) (event : Event) (mode : Mode) :
    Option (Outcome C E) := do
  if s.done then return ⟨.ok (unchanged s event), []⟩
  match ← (m.registry.select? m.chart s.configuration s.context event .event).run with
  | .error failure => return ⟨.error failure, []⟩
  | .ok [] => return ⟨.ok (unchanged s event), []⟩
  | .ok transitions =>
    outcome? (fun x => do
        m.finish? event (← m.isDone? x.configuration) (hasChanged s x) x)
      (m.runStep? mode s event transitions)

def exitStep? (m : Machine C E A) (s : Snapshot C) (mode : Mode) : Option (Outcome C E) :=
  outcome? (m.finish? .stop s.done true)
    (Execution.exitAll? m.chart m.registry mode .stop (execution s))

/-- A macrostep comes to what it comes to without looking up its numbers, and if it succeeds, its
snapshot is in the chart. -/
structure Agrees (c : Chart) (out? : Option (Outcome C E)) (out : Outcome C E) : Prop where
  eq : out? = some out
  inChart : ∀ step, out.result = .ok step → step.snapshot.InChart c

theorem outcome?_agrees {c : Chart} {finish? : Execution C E → Option (Macrostep C)}
    {finish : Execution C E → Macrostep C} {x? : ExceptT (Halt E) Option (Execution C E)}
    {x : Attempt E (Execution C E)} (hx : Gives (Execution.InChart c) x? x)
    (hf : ∀ y : Execution C E, y.InChart c →
      finish? y = some (finish y) ∧ (finish y).snapshot.InChart c) :
    Agrees c (outcome? finish? x?) (outcome finish x) := by
  rw [outcome?, hx.eq]
  cases hy : x with
  | error halt => exact ⟨rfl, nofun⟩
  | ok y =>
    obtain ⟨heq, hin⟩ := hf y (hx.keeps y hy)
    refine ⟨?_, fun step hstep => by cases hstep; exact hin⟩
    simp only [Option.bind_eq_bind, Option.bind_some, heq]
    rfl

section Macrosteps

variable {m : Machine C E A} {mode : Mode} (h : m.chart.Closed)
include h

theorem finish?_eq (event : Event) (done changed : Bool) (x : Execution C E) :
    m.finish? event done changed x = some (m.finish event done changed x) := by
  rw [finish?, StateValue.ofConfiguration?_eq h h.root_lt]
  rfl

theorem exitStep?_agrees {s : Snapshot C} (hs : s.InChart m.chart) :
    Agrees m.chart (m.exitStep? s mode) (m.exitStep s mode) := by
  have hx : (execution s : Execution C E).InChart m.chart := ⟨hs.holds, hs.recalls⟩
  exact outcome?_agrees (Execution.exitAll?_gives hx)
    fun y hy => ⟨finish?_eq h _ _ _ y, hy.holds, hy.recalls⟩

variable [BEq C]

theorem startStep?_agrees : Agrees m.chart (m.startStep? mode) (m.startStep mode) := by
  have hx : ({ configuration := ∅, context := m.context, history := [] } : Execution C E).InChart
      m.chart := ⟨fun _ hn => absurd hn NodeSet.mem_empty.mp, fun _ _ hget => by cases hget⟩
  refine outcome?_agrees ?_ fun y hy => ⟨?_, hy.holds, hy.recalls⟩
  · exact (Execution.enterInitial?_gives hx h).bind fun y hy => stabilize?_gives h _ _ _ y hy
  · rw [isDone?_eq h]
    exact finish?_eq h _ _ _ y

theorem step?_agrees {s : Snapshot C} (hs : s.InChart m.chart) (event : Event) :
    Agrees m.chart (m.step? s event mode) (m.step s event mode) := by
  have hx : (execution s : Execution C E).InChart m.chart := ⟨hs.holds, hs.recalls⟩
  have hunchanged : (unchanged s event).snapshot.InChart m.chart := ⟨hs.holds, hs.recalls⟩
  have hselect : (m.registry.select? m.chart s.configuration s.context event .event).run =
      some (m.registry.select m.chart s.configuration s.context event .event) :=
    Registry.select?_eq h hs.holds
  unfold step? Machine.step
  split
  · exact ⟨rfl, fun step hstep => by cases hstep; exact hunchanged⟩
  · rw [hselect]
    cases hsel : m.registry.select m.chart s.configuration s.context event .event with
    | error failure => exact ⟨rfl, nofun⟩
    | ok transitions =>
      cases transitions with
      | nil => exact ⟨rfl, fun step hstep => by cases hstep; exact hunchanged⟩
      | cons t rest =>
        have ht := Registry.select_offers h hsel
        refine outcome?_agrees ?_ fun y hy => ⟨?_, hy.holds, hy.recalls⟩
        · exact (Execution.microstep?_gives hx h ht).bind fun y hy =>
            stabilize?_gives h _ _ _ y hy
        · rw [isDone?_eq h]
          exact finish?_eq h _ _ _ y

end Macrosteps

/-! ## Runs -/

section Runs

variable [BEq C]

/-- The snapshots that starts, steps and exits lead to. -/
inductive Visited (m : Machine C E A) : Snapshot C → Prop
  | start {mode : Mode} {step : Macrostep C} (h : (m.startStep mode).result = .ok step) :
      Visited m step.snapshot
  | step {s : Snapshot C} {event : Event} {mode : Mode} {step : Macrostep C} (hs : Visited m s)
      (h : (m.step s event mode).result = .ok step) : Visited m step.snapshot
  | exit {s : Snapshot C} {mode : Mode} {step : Macrostep C} (hs : Visited m s)
      (h : (m.exitStep s mode).result = .ok step) : Visited m step.snapshot

/-- The macrosteps of runs, each as the machine makes it and number by number. -/
inductive Makes (m : Machine C E A) : Option (Outcome C E) → Outcome C E → Prop
  | start (mode : Mode) : Makes m (m.startStep? mode) (m.startStep mode)
  | step {s : Snapshot C} (hs : Visited m s) (event : Event) (mode : Mode) :
      Makes m (m.step? s event mode) (m.step s event mode)
  | exit {s : Snapshot C} (hs : Visited m s) (mode : Mode) :
      Makes m (m.exitStep? s mode) (m.exitStep s mode)

variable {m : Machine C E A}

/-- What snapshots refer to are states of the chart. -/
theorem Visited.inChart (h : m.chart.Closed) {s : Snapshot C} (hs : m.Visited s) :
    s.InChart m.chart := by
  induction hs with
  | start hstep => exact (startStep?_agrees h).inChart _ hstep
  | step _ hstep ih => exact (step?_agrees h ih _).inChart _ hstep
  | exit _ hstep ih => exact (exitStep?_agrees h ih).inChart _ hstep

theorem Makes.eq (h : m.chart.Closed) {out? : Option (Outcome C E)} {out : Outcome C E}
    (hm : m.Makes out? out) : out? = some out := by
  cases hm with
  | start mode => exact (startStep?_agrees h).eq
  | step hs event mode => exact (step?_agrees h (hs.inChart h) event).eq
  | exit hs mode => exact (exitStep?_agrees h (hs.inChart h)).eq

end Runs

/-! ## Names -/

section Names

variable {m : Machine C E A}

theorem covers_of_registered (h : m.chart.Registered m.registry.names) :
    Failure.Covers m.registry m.chart fun failure => failure.isUnregistered = false := by
  have hactions : ∀ actions : List Action,
      (∀ name, .named name ∈ actions → m.registry.names.action name = true) →
      Failure.CoversActions m.registry (fun failure => failure.isUnregistered = false) actions := by
    intro actions hall name hname hnone
    have hsome : (m.registry.action? name).isSome = true := hall name hname
    rw [hnone] at hsome; cases hsome
  exact {
    guard := fun t name hname hnone => by
      have hsome : (m.registry.guard? name).isSome = true := h.guard t name hname
      rw [hnone] at hsome; cases hsome
    guardFailed := fun _ _ _ => rfl
    entry := fun n => hactions _ (h.entry n)
    exit := fun n => hactions _ (h.exit n)
    actions := fun t => hactions _ (h.actions t)
    actionFailed := fun _ _ _ => rfl
    endlessEntry := fun _ => rfl }

variable [BEq C] {mode : Mode}

theorem Makes.moving {out? : Option (Outcome C E)} {out : Outcome C E} (hm : m.Makes out? out)
    {step : Macrostep C} (h : out.result = .ok step) :
    ∃ moves, Trail m.chart moves step.commands := by
  cases hm with
  | start mode => exact startStep_moving h
  | step hs event mode => exact step_moving h
  | exit hs mode =>
    obtain ⟨y, hy, rfl⟩ := outcome_ok h
    exact (Execution.exitStates_moved hy).moving ⟨[], .nil⟩

/-- No name is missing in a macrostep of a run. -/
theorem Makes.resolved (ha : m.chart.Accepted m.registry.names)
    (h : m.chart.Registered m.registry.names) {out? : Option (Outcome C E)} {out : Outcome C E}
    (hm : m.Makes out? out) : out.Resolved m.registry := by
  have hcovers := covers_of_registered h
  refine ⟨?_, fun step hstep => ?_⟩
  · cases hm with
    | start mode => exact startStep_fails hcovers (fun _ _ _ => rfl) (fun _ _ => rfl)
    | step hs event mode => exact step_fails hcovers (fun _ _ _ => rfl) (fun _ _ => rfl) _ event
    | exit hs mode => exact exitStep_fails hcovers _
  · obtain ⟨moves, ht⟩ := hm.moving hstep
    exact ht.known ha

end Names

/-- Accepted definitions never dangle. In the chart of a machine that was built, all numbers
are those of its states and transitions. What a snapshot refers to on any way through starts, steps
and exits are its states. Every macrostep on such a way is what it is when every state and every
transition is looked up; and it neither fails because a guard or an action is not registered, nor
asks for an actor that there is no source for. -/
theorem never_dangles [BEq C] {registry : Registry C E A} {context : C} {maxMicrosteps : Nat}
    {d : Definition} {m : Machine C E A}
    (hb : build registry context maxMicrosteps d = .ok m) :
    m.chart.Closed ∧ (∀ s, m.Visited s → s.InChart m.chart) ∧
      ∀ out? out, m.Makes out? out → out? = some out ∧ out.Resolved registry := by
  have ha := accepted_of_build hb
  have hclosed := Chart.closed_of_build (chart_of_build hb)
  have hregistered := Chart.registered_of_build (chart_of_build hb)
  rw [← registry_of_build hb] at ha hregistered ⊢
  exact ⟨hclosed, fun s hs => hs.inChart hclosed,
    fun out? out hm => ⟨hm.eq hclosed, hm.resolved ha hregistered⟩⟩

/-- A radio with a receiver while it is on. It comes back to what was last listened to, unless it
has been worn out. -/
def radio : Definition := {
  key := "radio"
  initial := some "on"
  states := [
    { key := "on"
      states := [
        { key := "music", on := [⟨"TUNE", [{ target := ["talk"] }]⟩] },
        { key := "talk" },
        { key := "last", history := some .shallow, target := ["music"] }]
      on := [⟨"OFF", [{ target := ["#radio.off"], actions := [.named "wear"] }]⟩]
      invoke := [{ id := some "receiver", src := "aerial" }] },
    { key := "off", on := [⟨"ON", [{ target := ["#radio.on.last"], guard := some "fit" }]⟩] }] }

/-- Every time that the radio is switched off wears it out a little. -/
def radioParts : Registry Nat Unit Unit where
  guards := [("fit", Guard.ofContext fun n => decide (n < 1000))]
  actions := [("wear", Routine.ofAssign fun n _ => n + 1)]
  actors := [("aerial",
    ⟨fun _ => (), fun _ _ => ⟨(), []⟩, fun _ _ _ => ⟨(), []⟩, fun _ _ => ⟨(), []⟩⟩)]

def radioMachine : Machine Nat Unit Unit := buildD radioParts 0 10 radio

/-- The radio remembers the talk, and goes back to it with its receiver. -/
theorem never_dangles_radio : ∃ s step, radioMachine.Visited s ∧ s.history ≠ [] ∧
    (radioMachine.step s { type := "ON" } .live).result = .ok step ∧
    step.commands = [.invoke 1 "receiver" "aerial"] ∧
    radioMachine.chart.Closed ∧
    (∀ s, radioMachine.Visited s → s.InChart radioMachine.chart) ∧
      ∀ out? out, radioMachine.Makes out? out → out? = some out ∧ out.Resolved radioParts := by
  have hbuild : build radioParts 0 10 radio = .ok radioMachine :=
    build_eq_buildD (by decide +kernel)
  have hrun : (do
      let a ← (radioMachine.startStep .live).result
      let b ← (radioMachine.step a.snapshot { type := "TUNE" } .live).result
      let c ← (radioMachine.step b.snapshot { type := "OFF" } .live).result
      let d ← (radioMachine.step c.snapshot { type := "ON" } .live).result
      return (c.snapshot, d) : Except Failure (Snapshot Nat × Macrostep Nat)).toOption.any
        (fun p => !p.1.history.isEmpty && p.2.commands = [.invoke 1 "receiver" "aerial"]) =
      true := by decide +kernel
  obtain ⟨p, hp, hall⟩ := exists_ok_of_any hrun
  simp only [Bool.and_eq_true, Bool.not_eq_true', List.isEmpty_eq_false_iff,
    decide_eq_true_eq] at hall
  simp only [bind_ok, pure_ok] at hp
  obtain ⟨a, ha, b, hb, c, hc, d, hd, rfl⟩ := hp
  have hvisited : radioMachine.Visited c.snapshot := ((Visited.start ha).step hb).step hc
  exact ⟨c.snapshot, d, hvisited, hall.1, hd, hall.2, never_dangles hbuild⟩

end Machine

end Statechart
