import Statechart.Proofs.Configuration.Memory
import Statechart.Proofs.Macrostep.Run

/-!
# Every reachable configuration is legal

The invariant is that the configuration is legal and that all that is remembered can be
entered again. A microstep of selected transitions keeps it (`Sound.microstep`), hence the
loop of a macrostep keeps it, hence every snapshot that a machine for a well-formed chart
ever returns has it.
-/
namespace Statechart

namespace Chart

variable {c : Chart}

/-- The configuration is legal and all that is remembered can be entered again. -/
structure Sound (c : Chart) (configuration : NodeSet) (history : Dict (List Nat)) : Prop where
  legal : c.Legal configuration
  remembers : c.Remembers history

variable {C E A : Type} {names : Names} (h : c.Accepted names)
  {r : Registry C E A} {mode : Mode} {event : Event} {x y : Execution C E}
include h

section Enterable

variable (we : c.Enterable)
include we

theorem sound_enterInitial (hx : x.configuration = ∅) (hh : x.history = [])
    (he : Execution.enterInitial c r mode event x = .ok y) : c.Sound y.configuration y.history := by
  obtain ⟨entries, hs, hm⟩ := Execution.enterInitial_spec he
  have hconf : y.configuration = entries := by
    rw [hm.configuration]
    refine NodeSet.ext fun n => ?_
    rw [Execution.mem_foldl_enter, hx]
    exact or_iff_right (fun hn => NodeSet.mem_empty.mp hn)
  refine ⟨?_, ?_⟩
  · rw [hconf]
    exact legal_initial h we ((remembers_nil c).restorable h we) hs
  · rw [hm.history, hh]; exact remembers_nil c

/-- Transitions that target orthogonal states, if they are selected, leave states of a legal
configuration and fill their domains again. -/
theorem Sound.exchange_of_aimsApart (hx : c.Sound x.configuration x.history)
    {transitions : List Nat} (hsel : c.Selected x.configuration transitions)
    (ho : ∀ t ∈ transitions, c.AimsApart t) {entries : NodeSet}
    (he : c.entrySet (Execution.recordHistory c (c.exitSet x.configuration transitions) x).history
      transitions = some entries) :
    c.Exchange x.configuration transitions entries
      ((Execution.moves (c.exitSet x.configuration transitions) entries).foldl Move.apply
        x.configuration) ∧
    c.Remembers (Execution.recordHistory c (c.exitSet x.configuration transitions) x).history := by
  obtain ⟨hl, hr⟩ := hx
  have hsource := hsel.source_lt h hl.lt_size
  have hrec := hr.recordHistory h we hl (c.exitSet x.configuration transitions)
    fun n hn => (mem_exitSet.mp hn).1
  have hrest := hrec.restorable h we
  exact ⟨{
    legal := hl
    selected := hsel
    entered := entrySet_grows h hrest.confined hsource he
    filled := entrySet_filled h we hrest ho hsource hsel.apart he
    mem_next := fun n => Execution.mem_foldl_moves }, hrec⟩

theorem Sound.microstep_of_aimsApart (hx : c.Sound x.configuration x.history) {context : C}
    {handled : Event} {trigger : Trigger} {transitions : List Nat}
    (hs : r.select c x.configuration context handled trigger = .ok transitions)
    (ho : ∀ t ∈ transitions, c.AimsApart t)
    (hm : Execution.microstep c r mode transitions event x = .ok y) :
    c.Sound y.configuration y.history := by
  have hsel := Registry.selected_of_select h hx.legal.lt_size hs
  obtain ⟨entries, he, hmoved⟩ := Execution.microstep_spec hm
  obtain ⟨hexchange, hremembers⟩ := hx.exchange_of_aimsApart h we hsel ho he
  refine ⟨?_, ?_⟩
  · rw [hmoved.configuration]; exact hexchange.legal_next h
  · rw [hmoved.history]; exact hremembers

end Enterable

variable (wf : c.WellFormed)
include wf

/-- In a well-formed chart every transition aims apart, so what is selected there can be taken:
the states that are left make room for those that are entered. -/
theorem Sound.exchange_of_selected (hx : c.Sound x.configuration x.history)
    {transitions : List Nat} (hsel : c.Selected x.configuration transitions) {entries : NodeSet}
    (he : c.entrySet (Execution.recordHistory c (c.exitSet x.configuration transitions) x).history
      transitions = some entries) :
    c.Exchange x.configuration transitions entries
      ((Execution.moves (c.exitSet x.configuration transitions) entries).foldl Move.apply
        x.configuration) ∧
    c.Remembers (Execution.recordHistory c (c.exitSet x.configuration transitions) x).history :=
  hx.exchange_of_aimsApart h wf.enterable hsel (fun t _ => wf.aimsApart t) he

theorem Sound.exchange (hx : c.Sound x.configuration x.history) {context : C} {handled : Event}
    {trigger : Trigger} {transitions : List Nat}
    (hs : r.select c x.configuration context handled trigger = .ok transitions)
    (hm : Execution.microstep c r mode transitions event x = .ok y) : ∃ entries,
      c.entrySet (Execution.recordHistory c (c.exitSet x.configuration transitions) x).history
        transitions = some entries ∧
      c.Exchange x.configuration transitions entries y.configuration ∧ c.Remembers y.history := by
  have hsel := Registry.selected_of_select h hx.legal.lt_size hs
  obtain ⟨entries, he, hmoved⟩ := Execution.microstep_spec hm
  obtain ⟨hexchange, hremembers⟩ := hx.exchange_of_selected h wf hsel he
  refine ⟨entries, he, ?_, ?_⟩
  · rw [hmoved.configuration]; exact hexchange
  · rw [hmoved.history]; exact hremembers

/-- A microstep of selected transitions keeps the invariant. -/
theorem Sound.microstep (hx : c.Sound x.configuration x.history) {context : C} {handled : Event}
    {trigger : Trigger} {transitions : List Nat}
    (hs : r.select c x.configuration context handled trigger = .ok transitions)
    (hm : Execution.microstep c r mode transitions event x = .ok y) :
    c.Sound y.configuration y.history :=
  hx.microstep_of_aimsApart h wf.enterable hs (fun t _ => wf.aimsApart t) hm

end Chart

namespace Machine

variable {C E A : Type} [BEq C] {m : Machine C E A}

section Sound

variable {names : Names} (h : m.chart.Accepted names) (wf : m.chart.WellFormed)
include h wf

theorem sound_settle {mode : Mode} {trigger : Event} {x y : Execution C E}
    (hx : m.chart.Sound x.configuration x.history) (he : m.settle mode trigger x = .ok y) :
    m.chart.Sound y.configuration y.history :=
  stabilize_invariant (P := fun x => m.chart.Sound x.configuration x.history)
    (fun x _ choice _ _ hx hs ht => Chart.Sound.microstep h wf
      (x := { x with internal := choice.internal }) hx hs ht) hx he

/-- Every snapshot that the machine returns satisfies the invariant. -/
theorem Reachable.sound {s : Snapshot C} (hr : m.Reachable s) :
    m.chart.Sound s.configuration s.history := by
  induction hr with
  | start hs =>
    obtain ⟨x, y, hx, hy, rfl⟩ := startStep_ok hs
    exact sound_settle h wf (Chart.sound_enterInitial h wf.enterable rfl rfl hx) hy
  | step _ hs ih =>
    rcases step_ok hs with rfl | ⟨transitions, x, y, hsel, hx, hy, rfl⟩
    · exact ih
    · exact sound_settle h wf (Chart.Sound.microstep h wf (x := execution _) ih hsel hx) hy

end Sound

theorem Reachable.history_eq_nil {s : Snapshot C} {names : Names} (h : m.chart.Accepted names)
    (hno : ∀ n, (m.chart.node n).isHistory = false) (hr : m.Reachable s) : s.history = [] := by
  have hmicrostep : ∀ {x y : Execution C E} {mode transitions event},
      x.history = [] → Execution.microstep m.chart m.registry mode transitions event x = .ok y →
      y.history = [] := fun hx hm => by
    obtain ⟨entries, -, hmoved⟩ := Execution.microstep_spec hm
    rw [hmoved.history, Chart.recordHistory_of_no_history h hno]
    exact hx
  have hsettle : ∀ {x y : Execution C E} {mode event}, x.history = [] →
      m.settle mode event x = .ok y → y.history = [] := fun hx hy =>
    stabilize_invariant (P := fun x => x.history = [])
      (fun x _ choice _ _ hx _ ht => hmicrostep (x := { x with internal := choice.internal }) hx ht)
      hx hy
  induction hr with
  | start hs =>
    obtain ⟨x, y, hx, hy, rfl⟩ := startStep_ok hs
    obtain ⟨entries, -, hmoved⟩ := Execution.enterInitial_spec hx
    exact hsettle hmoved.history hy
  | step _ hs ih =>
    rcases step_ok hs with rfl | ⟨transitions, x, y, -, hx, hy, rfl⟩
    · exact ih
    · exact hsettle (hmicrostep (x := execution _) ih hx) hy

/-- Every snapshot of a machine for a well-formed chart has a legal configuration. -/
theorem Reachable.legal {registry : Registry C E A} {context : C} {maxMicrosteps : Nat}
    {d : Definition} (hb : build registry context maxMicrosteps d = .ok m)
    (wf : m.chart.WellFormed) {s : Snapshot C} (hr : m.Reachable s) :
    m.chart.Legal s.configuration :=
  (hr.sound (accepted_of_build hb) wf).legal

/-- A player whose picture and sound are the regions of a parallel state with a history. -/
def player : Definition := {
  key := "player"
  initial := some "on"
  states := [
    { key := "on"
      kind := some .parallel
      states := [
        { key := "picture"
          states := [
            { key := "small", on := [⟨"ZOOM", [{ target := ["large"] }]⟩] },
            { key := "large" }] },
        { key := "sound", states := [{ key := "loud" }, { key := "mute" }] },
        { key := "last", history := some .deep }]
      on := [⟨"OFF", [{ target := ["off"] }]⟩] },
    { key := "off", on := [⟨"ON", [{ target := ["#player.on.last"] }]⟩] }] }

def playerMachine : Machine Unit Unit Unit := buildD {} () 10 player

theorem player_built : build {} () 10 player = .ok playerMachine := build_eq_buildD (by decide +kernel)

/-- The player comes back to its large picture, legally. -/
theorem legal_player : ∃ s, playerMachine.chart.WellFormed ∧ playerMachine.Reachable s ∧
    playerMachine.chart.Legal s.configuration := by
  have hb := player_built
  have wf : playerMachine.chart.WellFormed := by decide +kernel
  have hrun : (do
      let s ← playerMachine.initial
      let s ← playerMachine.transition s { type := "ZOOM" }
      let s ← playerMachine.transition s { type := "OFF" }
      playerMachine.transition s { type := "ON" }).isOk = true := by decide +kernel
  have hok := ok_of_isOk ⟨.leaf "", ∅, (), [], { type := "" }, [], false, false⟩ hrun
  simp only [bind_ok] at hok
  obtain ⟨s, hs, t, ht, u, hu, hv⟩ := hok
  have hr := (((reachable_of_initial hs).transition ht).transition hu).transition hv
  exact ⟨_, wf, hr, Reachable.legal hb wf hr⟩

end Machine

end Statechart
