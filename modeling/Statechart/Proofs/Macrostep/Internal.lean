import Statechart.Proofs.Macrostep.Course
import Statechart.Proofs.Macrostep.Microsteps

/-!
# Transitions that stay inside their sources

A transition whose targets are all inside its source, and that does not ask to leave it, stays
inside if the source is compound: its domain is the source itself, and neither the source nor a
state around it is left, entered or asked for anything (`Execution.Spares`). The same holds of the
root, whatever its kind, and of transitions without targets. Any other parallel state is no domain,
and is left.

There is one way out of a domain all the same. A history state may declare a default outside its
parent, and while nothing is remembered its entry leads there, up to the source. What is remembered
never does (`Course.noted_inside`).

* `spares_of_domain`: a microstep spares what is not inside the domain of its transition.
* `Machine.Inward.spares`: transitions that stay inside, and parallel sources that are left.
* `panel_resets`: a parallel source, and a default that leads back to the source.
-/
namespace Statechart

/-- A command is for the sake of a state: it is about its timers or its actors. -/
def Command.Concerns (c : Chart) (n : Nat) : Command → Prop
  | .schedule owner _ _ => owner = n
  | .cancelTimers owner => owner = n
  | .invoke owner _ _ => owner = n
  | .stopActor id => id ∈ (c.node n).invoke.map Invocation.id
  | .sendTo _ _ => False

instance (c : Chart) (n : Nat) (command : Command) : Decidable (command.Concerns c n) := by
  cases command <;> unfold Command.Concerns <;> infer_instance

namespace Phase

variable {c : Chart} {names : Names}

theorem not_concerns_of_mem_commands (h : c.Accepted names) {n : Nat} {p : Phase}
    (hexit : p ≠ .exit n) (henter : p ≠ .enter n) {command : Command}
    (hc : command ∈ p.commands c) : ¬ command.Concerns c n := by
  have hrequest : ∀ {actions : List Action}, command ∈ actions.filterMap Action.request? →
      ¬ command.Concerns c n := by
    intro actions hc
    obtain ⟨action, -, ha⟩ := List.mem_filterMap.mp hc
    cases action <;> cases ha
    exact id
  cases p with
  | exit k =>
    have hne : k ≠ n := fun e => hexit (congrArg Phase.exit e)
    rcases List.mem_append.mp hc with hc | hc
    · exact hrequest hc
    · rcases List.mem_append.mp hc with hc | hc
      · split at hc
        · exact absurd hc List.not_mem_nil
        · rw [List.mem_singleton.mp hc]; exact hne
      · obtain ⟨i, hi, rfl⟩ := List.mem_map.mp hc
        intro hid
        obtain ⟨j, hj, he⟩ := List.mem_map.mp hid
        exact hne (h.invoke_unique hi hj he.symm).1
  | act t => exact hrequest hc
  | enter k =>
    have hne : k ≠ n := fun e => henter (congrArg Phase.enter e)
    rcases List.mem_append.mp hc with hc | hc
    · rcases List.mem_append.mp hc with hc | hc
      · obtain ⟨d, -, rfl⟩ := List.mem_map.mp hc; exact hne
      · obtain ⟨i, -, rfl⟩ := List.mem_map.mp hc; exact hne
    · exact hrequest hc

end Phase

namespace Execution

variable {C E A : Type} {c : Chart} {r : Registry C E A} {x : Execution C E}

/-- The microstep of these transitions spares a state: the state is neither left nor entered, stays
active, and no command is for its sake. -/
structure Spares (c : Chart) (r : Registry C E A) (x : Execution C E) (transitions : List Nat)
    (n : Nat) : Prop where
  exit : .exit n ∉ x.phases c transitions
  enter : .enter n ∉ x.phases c transitions
  commands : ∀ command ∈ (x.phases c transitions).flatMap (Phase.commands c),
    ¬ command.Concerns c n
  /-- What the microstep writes is what its phases write. -/
  written : ∀ {mode event y}, microstep c r mode transitions event x = .ok y →
    Written c (x.phases c transitions) x y ∧ n ∈ y.configuration

theorem exit_mem_phases {transitions : List Nat} {n : Nat} :
    .exit n ∈ x.phases c transitions ↔ n ∈ c.exitSet x.configuration transitions := by
  simp [phases, NodeSet.mem_def]

theorem enter_mem_phases {transitions : List Nat} {n : Nat} :
    .enter n ∈ x.phases c transitions ↔
      n ∈ (c.entrySet (recordHistory c (c.exitSet x.configuration transitions) x).history
        transitions).getD ∅ := by
  simp [phases, NodeSet.mem_def]

end Execution

/-! ## Domains -/

namespace Chart

variable {c : Chart} {names : Names}

/-- History states inside `a` for which nothing is remembered stand by default for states inside
their parents. -/
def DefaultsConfined (c : Chart) (a : Nat) (history : Dict (List Nat)) : Prop :=
  ∀ n, c.isDescendant n a = true → (c.node n).isHistory = true →
    history.get? (c.node n).id = none →
      ∀ t ∈ (c.node n).historyTarget, (c.node n).parent.any (c.isDescendant t) = true

/-- All that is remembered is inside the parents of the history states that remember it. -/
def NotedInside (c : Chart) (history : Dict (List Nat)) : Prop :=
  c.Noted (fun p states => ∀ t ∈ states, c.isDescendant t p = true) history

theorem confinedIn_of_noted (h : c.Accepted names) {a : Nat} {history : Dict (List Nat)}
    (hd : c.DefaultsConfined a history) (hn : c.NotedInside history) :
    c.ConfinedIn a history := by
  intro n p hna hh hp t ht
  unfold restored at ht
  cases hg : history.get? (c.node n).id with
  | none => rw [hg] at ht; exact historyDefault_inside h hp (hd n hna hh hg) ht
  | some states => rw [hg] at ht; exact hn n p states hh hp hg t ht

theorem domain_eq_source {t d : Nat} (h : c.IsTree) (hd : c.domain t = some d)
    (hr : (c.transition t).reenter = false)
    (hin : ∀ n ∈ (c.transition t).targets, c.isDescendant n (c.transition t).source = true)
    (hs : (c.node (c.transition t).source).isCompound = true ∨ (c.transition t).source = root) :
    d = (c.transition t).source := by
  unfold domain at hd
  dsimp only at hd
  split at hd
  · cases hd
  · by_cases hc : (c.node (c.transition t).source).isCompound = true
    · have hinternal : c.isInternal (c.transition t) = true := by
        simpa [isInternal, hr, hc] using hin
      rw [if_pos hinternal] at hd
      exact (Option.some.inj hd).symm
    · have hroot := hs.resolve_left hc
      have hno : c.isInternal (c.transition t) = false := by simp [isInternal, hc]
      rw [if_neg (by simp [hno]), commonCompound, hroot, ancestors_of_none h.parent_root] at hd
      exact (Option.some.inj hd).symm.trans hroot.symm

/-- A parallel state other than the root is inside the domain of its transitions with targets. -/
theorem isDescendant_domain {t : Nat} (h : c.IsTree) (hs : (c.transition t).source < c.size)
    (hp : (c.node (c.transition t).source).isParallel = true) (hroot : (c.transition t).source ≠ root)
    (ht : (c.transition t).targets ≠ []) :
    ∃ d, c.domain t = some d ∧ c.isDescendant (c.transition t).source d = true := by
  have hcomp : (c.node (c.transition t).source).isCompound ≠ true := fun hc => by
    rw [Node.not_parallel_of_compound hc] at hp; cases hp
  have hno : c.isInternal (c.transition t) = false := by simp [isInternal, hcomp]
  refine ⟨c.commonCompound ((c.transition t).source :: (c.transition t).targets), ?_, ?_⟩
  · simp [domain, Transition.isTargetless, ht, hno]
  · obtain ⟨hw, ⟨hc, -⟩ | hr⟩ := commonCompound_spec h (c.transition t).targets hs
    · exact hw.resolve_left fun e => hcomp (e ▸ hc)
    · rw [hr] at hw ⊢
      exact hw.resolve_left hroot

end Chart

/-! ## Microsteps -/

namespace Execution

variable {C E A : Type} {c : Chart} {r : Registry C E A} {x : Execution C E} {names : Names}

/-- A microstep spares what is not inside the domain of its transition, if history states there
are confined. -/
theorem spares_of_domain (h : c.Accepted names) {t n : Nat}
    (hs : (c.transition t).source < c.size) (hroot : Chart.root ∉ (c.transition t).targets)
    (hconf : ∀ d, c.domain t = some d → c.Within d n ∧
      c.ConfinedIn d (c.historyAfter x.configuration (c.exitSet x.configuration [t]) x.history))
    (hn : n ∈ x.configuration) : Spares c r x [t] n := by
  have hout : ∀ d, c.domain t = some d → ¬ c.isDescendant n d = true := fun d hd hnd =>
    Chart.not_isDescendant_self (h.within_isDescendant (hconf d hd).1 hnd)
  have hexit : .exit n ∉ x.phases c [t] := by
    rw [exit_mem_phases, Chart.mem_exitSet]
    rintro ⟨-, u, hu, d, hd, hnd⟩
    obtain rfl := List.mem_singleton.mp hu
    exact hout d hd hnd
  have henter : .enter n ∉ x.phases c [t] := by
    rw [enter_mem_phases]
    intro hmem
    cases he : c.entrySet (recordHistory c (c.exitSet x.configuration [t]) x).history [t] with
    | none => rw [he] at hmem; exact NodeSet.mem_empty.mp hmem
    | some entries =>
      rw [he] at hmem
      obtain ⟨u, hu, d, hd, hnd | ⟨-, -, htarget⟩⟩ := Chart.mem_entrySet h
        (fun u hu d hd => by rw [List.mem_singleton.mp hu] at hd; exact (hconf d hd).2)
        (fun u hu => by rw [List.mem_singleton.mp hu]; exact hs) he hmem
      · rw [List.mem_singleton.mp hu] at hd
        exact hout d hd hnd
      · rw [List.mem_singleton.mp hu] at htarget
        exact hroot htarget
  have hcommands : ∀ command ∈ (x.phases c [t]).flatMap (Phase.commands c),
      ¬ command.Concerns c n := by
    intro command hc
    obtain ⟨p, hp, hc⟩ := List.mem_flatMap.mp hc
    exact Phase.not_concerns_of_mem_commands h (fun e => hexit (e ▸ hp)) (fun e => henter (e ▸ hp)) hc
  refine ⟨hexit, henter, hcommands, fun hy => ?_⟩
  have hw := microstep_written hy
  refine ⟨hw, ?_⟩
  rw [hw.configuration, mem_foldl_of_not_enter henter]
  exact ⟨hn, hexit⟩

end Execution

namespace Machine

open Chart

variable {C E A : Type} {m : Machine C E A} {names : Names}

/-- What is remembered along a course is inside the parents of the history states, whatever
their defaults are. -/
theorem Course.noted_inside (h : m.chart.Accepted names) {hops : List Hop} {mode : Mode}
    {current : Event} {x : Execution C E} (hx : m.Course hops mode current x) :
    m.chart.NotedInside x.history := by
  refine hx.keeps (P := fun _ s => m.chart.NotedInside s.2) (fun mode y he => ?_)
    fun hops x y transitions mode event context handled trigger hn _ he => ?_
  · obtain ⟨entries, -, hmoved⟩ := Execution.enterInitial_spec he
    rw [Execution.standing, hmoved.history]
    exact noted_nil _ _
  · obtain ⟨entries, -, hmoved⟩ := Execution.microstep_spec he
    rw [Execution.standing, hmoved.history]
    exact Noted.recordHistory h hn fun _ _ _ _ mode => remembered_inside h.toIsTree _ _ mode

/-- An execution stands where a run has come to, in a legal configuration, and selects a transition
whose targets are all inside its source and that does not ask to leave it. -/
structure Inward (m : Machine C E A) (x : Execution C E) (t : Nat) : Prop where
  reached : ∃ hops mode current z, m.Course hops mode current z ∧ z.standing = x.standing
  legal : m.chart.Legal x.configuration
  selected : ∃ context handled trigger transitions,
    m.registry.select m.chart x.configuration context handled trigger = .ok transitions ∧
      t ∈ transitions
  reenter : (m.chart.transition t).reenter = false
  inside : ∀ n ∈ (m.chart.transition t).targets,
    m.chart.isDescendant n (m.chart.transition t).source = true

/-- Where an event selects a transition in a snapshot of a run. -/
theorem inward_of_reachable [BEq C] {s : Snapshot C} (hs : m.Reachable s)
    (hl : m.chart.Legal s.configuration) {event : Event} {t : Nat}
    (hsel : (m.registry.select m.chart s.configuration s.context event .event).toOption.any
      (fun ts => decide (t ∈ ts)) = true)
    (hr : (m.chart.transition t).reenter = false)
    (hin : ∀ n ∈ (m.chart.transition t).targets,
      m.chart.isDescendant n (m.chart.transition t).source = true) :
    m.Inward (execution s) t := by
  obtain ⟨hops, mode, current, z, hz, -, hstand⟩ := hs.course
  obtain ⟨ts, hts, ht⟩ := exists_ok_of_any hsel
  exact ⟨⟨hops, mode, current, z, hz, (congrArg Execution.standing hstand).symm⟩, hl,
    ⟨_, _, _, ts, hts, of_decide_eq_true ht⟩, hr, hin⟩

/-- A panel with a parallel board that hums while it is lit, and with a box whose history stands
for the box itself until something is remembered. -/
def panel : Definition where
  key := "panel"
  initial := "board"
  states := [
    { key := "board"
      kind := some .parallel
      entry := [.named "lit"]
      exit := [.named "dark"]
      after := [⟨50, [{ target := ["box"] }]⟩]
      invoke := [{ id := "hum", src := "coil" }]
      on := [⟨"SWAP", [{ target := [".left.down"] }]⟩, ⟨"OPEN", [{ target := ["box"] }]⟩]
      states := [
        { key := "left"
          initial := "up"
          on := [⟨"FLIP", [{ target := [".down"] }]⟩]
          states := [{ key := "up" }, { key := "down" }] },
        { key := "right", initial := "up", states := [{ key := "up" }, { key := "down" }] }] },
    { key := "box"
      initial := "shut"
      entry := [.named "creak"]
      on := [⟨"BACK", [{ target := [".last"] }]⟩]
      states := [
        { key := "shut" },
        { key := "last", history := some .shallow, target := ["#panel.box"] }] }]

/-- What the panel does is not modelled further, nor is the hum. -/
def panelRegistry : Registry Unit Unit Unit where
  actions := ["lit", "dark", "creak"].map fun name => (name, .effect fun _ _ => .ok ())
  actors := [("coil",
    ⟨fun _ => (), fun _ _ => ⟨(), []⟩, fun _ _ _ => ⟨(), []⟩, fun _ _ => ⟨(), []⟩⟩)]

def panelMachine : Machine Unit Unit Unit := buildD panelRegistry () 10 panel

/-- Three transitions of the panel, to states inside their sources. -/
theorem panel_built : (build panelRegistry () 10 panel).isOk = true ∧
    (∀ t ∈ [0, 3, 4], (panelMachine.chart.transition t).reenter = false ∧
      ∀ n ∈ (panelMachine.chart.transition t).targets,
        panelMachine.chart.isDescendant n (panelMachine.chart.transition t).source = true) ∧
    ((panelMachine.chart.transition 0).source = 1 ∧
      (panelMachine.chart.node 1).isParallel = true) ∧
    ((panelMachine.chart.transition 3).source = 2 ∧
      (panelMachine.chart.node 2).isCompound = true ∧
      panelMachine.chart.isDescendant 2 1 = true ∧
      ∀ n < panelMachine.chart.size, panelMachine.chart.isDescendant n 2 = true →
        (panelMachine.chart.node n).isHistory = false) ∧
    (panelMachine.chart.transition 4).source = 8 ∧
      (panelMachine.chart.node 8).isCompound = true := by
  decide +kernel

/-- The board is left by a transition to a state inside it, its timer and its hum with it. -/
theorem board_reset : ∃ x, panelMachine.Inward x 0 ∧
    .exit 1 ∈ x.phases panelMachine.chart [0] ∧ .enter 1 ∈ x.phases panelMachine.chart [0] ∧
    (x.phases panelMachine.chart [0]).flatMap (Phase.commands panelMachine.chart) =
      [.cancelTimers 1, .stopActor "hum",
        .schedule 1 { type := Event.afterType 50 "panel.board" } 50, .invoke 1 "hum" "coil"] := by
  have hrun : (panelMachine.startStep .live).result.toOption.any (fun a =>
      let x : Execution Unit Unit := execution a.snapshot
      let c := panelMachine.chart
      decide (c.Legal x.configuration ∧
        (panelMachine.registry.select c x.configuration () { type := "SWAP" } .event).toOption.any
          (fun ts => decide (0 ∈ ts)) = true ∧
        .exit 1 ∈ x.phases c [0] ∧ .enter 1 ∈ x.phases c [0] ∧
        (x.phases c [0]).flatMap (Phase.commands c) =
          [.cancelTimers 1, .stopActor "hum",
            .schedule 1 { type := Event.afterType 50 "panel.board" } 50,
            .invoke 1 "hum" "coil"])) = true := by
    decide +kernel
  obtain ⟨a, ha, hall⟩ := exists_ok_of_any hrun
  obtain ⟨hlegal, hswap, hphases⟩ := of_decide_eq_true hall
  obtain ⟨hr, hin⟩ := panel_built.2.1 0 (by simp)
  exact ⟨_, inward_of_reachable (.start ha) hlegal hswap hr hin, hphases⟩

theorem box_entered_again : ∃ x, panelMachine.Inward x 4 ∧
    .enter 8 ∈ x.phases panelMachine.chart [4] := by
  have hrun : (do
      let a ← (panelMachine.startStep .live).result
      (panelMachine.step a.snapshot { type := "OPEN" } .live).result).toOption.any
        (fun b : Macrostep Unit =>
      let x : Execution Unit Unit := execution b.snapshot
      let c := panelMachine.chart
      decide (c.Legal x.configuration ∧
        (panelMachine.registry.select c x.configuration () { type := "BACK" } .event).toOption.any
          (fun ts => decide (4 ∈ ts)) = true ∧ Phase.enter 8 ∈ x.phases c [4])) = true := by
    decide +kernel
  obtain ⟨b, hb, hall⟩ := exists_ok_of_any hrun
  obtain ⟨a, ha, hb⟩ := bind_ok.mp hb
  obtain ⟨hlegal, hback, henter⟩ := of_decide_eq_true hall
  obtain ⟨hr, hin⟩ := panel_built.2.1 4 (by simp)
  exact ⟨_, inward_of_reachable (.step (.start ha) hb) hlegal hback hr hin, henter⟩

end Machine

end Statechart
