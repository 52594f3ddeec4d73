import Statechart.Proofs.Chart.WellFormed
import Statechart.Proofs.Configuration.Independence
import Statechart.Proofs.Macrostep.Course

/-!
# Simultaneous transitions are independent of their order

Several transitions are selected at once where parallel regions react to one event. They are
taken in one microstep, in the order of the document, and their actions run in that order. But
the configuration and the history come out the same in any other order, and if every transition
has a microstep of its own. Only a failing action can stop a microstep before that.
-/
namespace Statechart.Machine

open Chart

variable {C E A : Type} {m : Machine C E A}

/-- Selected transitions are independent of their order. Wherever a run of a well-formed
machine has come to, there are one configuration and one history that every microstep of the
selected transitions comes to, in whatever order they are, and that they come to one at a time
in any order, unless an action fails. -/
theorem selected_independent {registry : Registry C E A} {initial : C} {maxMicrosteps : Nat}
    {d : Definition} (hb : build registry initial maxMicrosteps d = .ok m)
    (wf : m.chart.WellFormed) {hops : List Hop} {mode : Mode} {current : Event}
    {x : Execution C E} (hx : m.Course hops mode current x) {context : C} {handled : Event}
    {trigger : Trigger} {transitions : List Nat}
    (hsel : m.registry.select m.chart x.configuration context handled trigger = .ok transitions) :
    ∃ configuration history, ∀ order : List Nat, order.Perm transitions →
      ∀ (mode : Mode) (event : Event) (y : Execution C E),
        y.configuration = x.configuration → y.history = x.history →
        (Execution.microstep m.chart m.registry mode order event y).ComesTo
          (fun z => z.configuration = configuration ∧ z.history = history) ∧
        Attempt.ComesTo (fun z => z.configuration = configuration ∧ z.history = history)
          (order.foldlM (fun y t => Execution.microstep m.chart m.registry mode [t] event y) y) := by
  have h := accepted_of_build hb
  obtain ⟨hsound, -⟩ := hx.sound h wf
  have hselected := Registry.selected_of_select h hsound.legal.lt_size hsel
  obtain ⟨configuration, history, hind⟩ := hsound.independent h wf hx.sorted hselected
  refine ⟨configuration, history, fun order horder mode event y hc hh => ?_⟩
  obtain ⟨htogether, heach⟩ := hind order horder
  rw [← hc, ← hh] at htogether heach
  exact ⟨Execution.microstep_comesTo htogether, Execution.microsteps_comesTo heach⟩

/-- A mixer whose channels change over at the same event. -/
def mixer : Definition := {
  key := "mixer"
  kind := some .parallel
  states := [
    { key := "left"
      states := [
        { key := "low", on := [⟨"SWAP", [{ target := ["high"] }]⟩] },
        { key := "high" }] },
    { key := "right"
      states := [
        { key := "dry", on := [⟨"SWAP", [{ target := ["wet"] }]⟩] },
        { key := "wet", states := [{ key := "short" }, { key := "long" }] }] }] }

def mixerMachine : Machine Unit Unit Unit := buildD {} () 10 mixer

/-- Both channels change over, in either order. -/
theorem selected_independent_mixer : ∃ x : Execution Unit Unit,
    mixerMachine.Course [] .replay .init x ∧
    mixerMachine.registry.select mixerMachine.chart x.configuration () { type := "SWAP" } .event =
      .ok [0, 1] ∧
    ∃ configuration history, ∀ order ∈ [[0, 1], [1, 0]],
      (Execution.microstep mixerMachine.chart mixerMachine.registry .replay order
        { type := "SWAP" } x).ComesTo
          (fun z => z.configuration = configuration ∧ z.history = history) ∧
      Attempt.ComesTo (fun z => z.configuration = configuration ∧ z.history = history)
        (order.foldlM (fun y t => Execution.microstep mixerMachine.chart mixerMachine.registry
          .replay [t] { type := "SWAP" } y) x) := by
  have hb : build {} () 10 mixer = .ok mixerMachine := build_eq_buildD (by decide +kernel)
  have wf : mixerMachine.chart.WellFormed := by decide +kernel
  obtain ⟨x, hx, hc⟩ : ∃ x : Execution Unit Unit, Execution.enterInitial mixerMachine.chart
      mixerMachine.registry .replay .init { configuration := ∅, context := (), history := [] } =
        .ok x ∧ x.configuration = NodeSet.ofList [0, 1, 2, 4, 5] := ⟨_, rfl, by decide +kernel⟩
  have hsel : mixerMachine.registry.select mixerMachine.chart x.configuration ()
      { type := "SWAP" } .event = .ok [0, 1] := by rw [hc]; rfl
  obtain ⟨configuration, history, hall⟩ := selected_independent hb wf (.start hx) hsel
  refine ⟨x, .start hx, hsel, configuration, history, fun order horder => ?_⟩
  exact hall order (by revert order; decide) .replay { type := "SWAP" } x rfl rfl

end Statechart.Machine
