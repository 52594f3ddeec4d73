import Statechart.Proofs.Session.Follows
import Statechart.Proofs.Session.Strides

/-!
# Timers and actors live as long as their states

While a session runs, its resources follow the configuration of its snapshot. A macrostep
that succeeds is applied as a whole: its commands lead the resources along its moves, and its
snapshot is the configuration where they arrive. A macrostep that fails changes neither. The
invariant of sessions (`Coupled`) says so of every session, whether it runs or not, and calls
keep it stride by stride.

* `Coupled.apply`: a macrostep that succeeds.
* `Coupled.upon`, `Coupled.stride`: the beginning of a call, and every stride.
* `Reachable.lifetimes`: what a running session has after every call.
-/
namespace Statechart.Session

open Chart

variable {C E A : Type} {m : Machine C E A} {s t : Session C E A}

/-- The resources of a session follow its configuration while it runs; before the start there
are none. -/
structure Coupled (m : Machine C E A) (s : Session C E A) : Prop where
  machine : s.machine = m
  fresh : s.status = .notStarted → Numbered s ∧ s.resources = {}
  running : s.status = .running → ∃ snapshot, s.snapshot = some snapshot ∧
    m.chart.Contained snapshot.configuration snapshot.history ∧
    Numbered s ∧ Follows m.chart snapshot.configuration s.resources

theorem coupled_ofMachine (m : Machine C E A) (name : String) (journalLimit : Option Nat) :
    Coupled m (ofMachine m name journalLimit) where
  machine := rfl
  fresh _ := ⟨⟨.nil, fun _ hh => absurd hh List.not_mem_nil⟩, rfl⟩
  running hs := by cases hs

namespace Coupled

theorem of_stopped (hm : s.machine = m) (hs : s.status = .stopped) : Coupled m s where
  machine := hm
  fresh h := by rw [hs] at h; cases h
  running h := by rw [hs] at h; cases h

theorem frame (h : Coupled m s) (hf : Frame s t) : Coupled m t where
  machine := hf.machine.trans h.machine
  fresh hs := by
    obtain ⟨hn, hr⟩ := h.fresh (hf.status ▸ hs)
    exact ⟨hf.numbered hn, hf.resources.trans hr⟩
  running hs := by
    obtain ⟨snapshot, he, hc, hn, hr⟩ := h.running (hf.status ▸ hs)
    exact ⟨snapshot, hf.snapshot.trans he, hc, hf.numbered hn, hf.resources ▸ hr⟩

theorem timers (h : Coupled m s) {timers : Timers}
    (hsub : ∀ x ∈ timers.pending, x ∈ s.timers.pending) : Coupled m { s with timers } := by
  have howners : ∀ n ∈ timers.pending.map Timer.owner, n ∈ s.resources.owners := by
    intro n hn
    obtain ⟨x, hx, rfl⟩ := List.mem_map.mp hn
    exact List.mem_map_of_mem (hsub x hx)
  refine ⟨h.machine, fun hs => ?_, fun hs => ?_⟩
  · obtain ⟨⟨hn, hl⟩, hr⟩ := h.fresh hs
    refine ⟨⟨hn, hl⟩, ?_⟩
    rw [hr] at howners
    have hnil := List.eq_nil_iff_forall_not_mem.mpr fun n hn => absurd (howners n hn) List.not_mem_nil
    have hrun : s.resources.running = [] := by rw [hr]
    exact congrArg₂ Resources.mk hnil hrun
  · obtain ⟨snapshot, he, hc, ⟨hn, hl⟩, hr⟩ := h.running hs
    exact ⟨snapshot, he, hc, ⟨hn, hl⟩, hr.of_owners howners⟩

end Coupled

/-! ## The end of a session -/

theorem teardown_spec (s : Session C E A) :
    s.teardown.machine = s.machine ∧ s.teardown.status = .stopped :=
  ⟨(Frame.foldl stopRunning_frame s.actors.reverse
    { s with timers := s.timers.clear, actors := [] }).machine, rfl⟩

theorem Coupled.teardown (hm : s.machine = m) : Coupled m s.teardown :=
  .of_stopped ((teardown_spec s).1.trans hm) (teardown_spec s).2

theorem Coupled.stop (h : Coupled m s) : Coupled m s.stop.session := by
  unfold Session.stop
  split
  · exact h
  · exact .of_stopped h.machine rfl
  · exact .teardown h.machine
  · rename_i snapshot _ _
    have hm := (noteEffects_frame s (s.machine.exitStep snapshot .live).effects).machine
    dsimp only
    split
    · exact .teardown (hm.trans h.machine)
    · exact .teardown (hm.trans h.machine)

/-- What a call does first leaves timers and actors with the configuration. -/
theorem Coupled.upon (h : Coupled m s) (call : Call) : Coupled m (s.upon call) := by
  cases call with
  | send event =>
    dsimp only [Session.upon]
    split
    · exact h
    · exact (h.frame (note_frame _ _)).frame (enqueue_frame _ _)
  | stop => exact h.stop
  | post number event => exact h.frame (post_frame s number event)
  | subscribe => exact h.frame ⟨rfl, rfl, rfl, rfl, rfl, rfl⟩
  | unsubscribe listener => exact h.frame ⟨rfl, rfl, rfl, rfl, rfl, rfl⟩
  | takeTrace => exact h.frame ⟨rfl, rfl, rfl, rfl, rfl, rfl⟩
  | clock time => exact h.frame ⟨rfl, rfl, rfl, rfl, rfl, rfl⟩
  | start => exact h
  | flush => exact h
  | advance ms => exact h

/-! ## Strides -/

section Stride

variable (h : m.chart.Accepted m.registry.names)
include h

/-- A macrostep that is applied takes the resources to its configuration. -/
theorem Coupled.apply {configuration : NodeSet} {step : Macrostep C} (hm : s.machine = m)
    (hs : s.status = .running) (hn : Numbered s) (hf : Follows m.chart configuration s.resources)
    (hc : m.chart.Contained step.snapshot.configuration step.snapshot.history)
    (hl : m.chart.Leads configuration step.snapshot.configuration step.commands) :
    Coupled m (s.apply step) := by
  obtain ⟨moves, hfit, hnext, ht⟩ := hl
  obtain ⟨hn', hr⟩ := foldl_execute_resources step.snapshot.context hn
    (by rw [hm]; exact ht.known h)
  obtain ⟨hm', hs'⟩ := foldl_execute_machine step.snapshot.context step.commands s
  have hframe := (record_frame (step.commands.foldl (execute step.snapshot.context) s) step).trans
    (publish_frame _ step.snapshot)
  have hmachine := hframe.machine.trans (hm'.trans hm)
  unfold Session.apply
  dsimp only
  split
  · exact .teardown hmachine
  · refine ⟨hmachine, fun hfresh => ?_, fun _ => ⟨step.snapshot, rfl, hc, ?_, ?_⟩⟩
    · have hstatus := hframe.status.trans (hs'.trans hs)
      rw [show _ = Status.running from hstatus] at hfresh; cases hfresh
    · exact ⟨(hframe.numbered hn').nodup, (hframe.numbered hn').lt⟩
    · rw [hnext]
      have hfollows := hf.trail h ht hfit
      rw [← hr, ← hframe.resources] at hfollows
      exact hfollows

variable [BEq C] (hd : m.chart.DefaultsInside)
include hd

/-- An event that is handled is a macrostep that is applied, or changes nothing. -/
theorem Coupled.handle (hc : Coupled m s) (hs : s.status = .running) {snapshot : Snapshot C}
    (he : s.snapshot = some snapshot) (event : Event) :
    Coupled m (s.handle snapshot event).session := by
  have hframe := (note_frame s (.handled event)).trans
    (noteEffects_frame _ (s.machine.step snapshot event .live).effects)
  obtain ⟨current, hcur, hin, hn, hf⟩ := hc.running hs
  rw [he] at hcur; cases hcur
  unfold Session.handle
  dsimp only
  split
  · exact hc.frame hframe
  · rename_i step hstep
    rw [hc.machine] at hstep
    obtain ⟨hin', hl⟩ := Machine.step_leads h hd hin hstep
    exact .apply h (hframe.machine.trans hc.machine) (hframe.status.trans hs) (hframe.numbered hn)
      (hframe.resources ▸ hf) hin' hl

theorem Coupled.turn (hc : Coupled m s) : Coupled m s.turn.session := by
  have hc := hc.frame (collect_frame s)
  have hrest (rest : List Queued) : Coupled m { s.collect with queue := rest } :=
    hc.frame ⟨rfl, rfl, rfl, rfl, rfl, rfl⟩
  have ht := s.took
  generalize s.turn = turn at ht ⊢
  cases ht with
  | idle _ => exact hc
  | @dropped item rest snapshot _ _ _ _ => exact (hrest rest).frame (note_frame _ _)
  | @handled item rest snapshot hs _ _ he => exact (hrest rest).handle h hd hs he item.event

theorem Coupled.started (hc : Coupled m s) (hs : s.status = .notStarted) {step : Macrostep C}
    (he : (s.machine.startStep .live).result = .ok step) :
    Coupled m
      ({ s.noteEffects (s.machine.startStep .live).effects with status := .running }.apply step) := by
  obtain ⟨hn, hr⟩ := hc.fresh hs
  have hframe := noteEffects_frame s (s.machine.startStep .live).effects
  have hempty : (s.noteEffects (s.machine.startStep .live).effects).resources = {} :=
    hframe.resources.trans hr
  rw [hc.machine] at he
  obtain ⟨hin, hl⟩ := Machine.startStep_leads h hd he
  refine .apply h (hframe.machine.trans hc.machine) rfl
    ⟨(hframe.numbered hn).nodup, (hframe.numbered hn).lt⟩ ?_ hin hl
  have hfollows := follows_empty m.chart
  rw [← hempty] at hfollows
  exact hfollows

/-- Every stride keeps the resources with the configuration. -/
theorem Coupled.stride (hc : Coupled m s) (hst : Stride s t) : Coupled m t := by
  cases hst with
  | unstarted hs he => exact hc.frame (noteEffects_frame _ _)
  | started hs he => exact hc.started h hd hs he
  | turn => exact hc.turn h hd
  | fired hs ht =>
    unfold Timers.take? at ht
    obtain ⟨x, -, hx⟩ := Option.map_eq_some_iff.mp ht
    cases hx
    exact ((hc.timers fun y hy => List.mem_of_mem_erase hy).frame (note_frame _ _)).frame
      (enqueue_frame _ _)
  | waited _ => exact hc.timers fun _ hx => hx

end Stride

/-- Timers and actors follow the configuration. Whatever was called before, and whether it
succeeded or failed: while a session of a built machine runs, every pending timer belongs to
an active state; each invocation of a state other than the root has exactly one actor if the
state is active and none if it is not; and there are no other actors but those of the root. -/
theorem Reachable.lifetimes [BEq C] {registry : Registry C E A} {context : C}
    {maxMicrosteps : Nat} {d : Definition}
    (hb : Machine.build registry context maxMicrosteps d = .ok m) (hd : m.chart.DefaultsInside)
    (hr : Reachable m s) (hs : s.status = .running) :
    ∃ snapshot, s.snapshot = some snapshot ∧
      (∀ timer ∈ s.timers.pending, timer.owner ∈ snapshot.configuration) ∧
      (∀ n, n ≠ root → ∀ i ∈ (m.chart.node n).invoke,
        (s.actors.filter fun a => a.handle.id = i.id).length =
          if n ∈ snapshot.configuration then 1 else 0) ∧
      ∀ a ∈ s.actors, ∃ n, (n ∈ snapshot.configuration ∨ n = root) ∧
        ∃ i ∈ (m.chart.node n).invoke, i.id = a.handle.id := by
  have h : m.chart.Accepted m.registry.names := by
    rw [Machine.registry_of_build hb]; exact Machine.accepted_of_build hb
  have hc : Coupled m s :=
    hr.of_stride (coupled_ofMachine m) (fun _ call hc => hc.upon call)
      fun _ _ hc => hc.stride h hd
  obtain ⟨snapshot, he, -, -, hf⟩ := hc.running hs
  have hcount : ∀ id, (s.actors.filter fun a => a.handle.id = id).length =
      s.resources.running.count id := by
    intro id
    rw [resources, handles, List.map_map, List.count, List.countP_map, List.countP_eq_length_filter]
    rfl
  refine ⟨snapshot, he, fun timer ht => hf.owner_mem _ (List.mem_map_of_mem ht),
    fun n hn i hi => ?_, fun a ha => hf.active _ ?_⟩
  · rw [hcount]
    split
    · rename_i hm; exact hf.one n hm hn i hi
    · rename_i hm; exact hf.count_eq_zero h hm hn hi
  · exact List.mem_map_of_mem (List.mem_map_of_mem ha)

/-- A lamp that turns itself off, with a bulb that glows while it is on and cannot be taken
out. -/
def lamp : Definition := {
  key := "lamp"
  initial := some "off"
  states := [
    { key := "off", on := [⟨"PRESS", [{ target := ["on"] }]⟩] },
    { key := "on"
      on := [⟨"PRESS", [{ target := ["on"], reenter := true }]⟩,
        ⟨"UNSCREW", [{ target := ["off"], actions := [.named "hot"] }]⟩]
      after := [⟨30, [{ target := ["off"] }]⟩]
      invoke := [{ id := some "glow", src := "bulb" }] }] }

/-- A bulb does nothing by itself, but it is hot. -/
def bulbs : Registry Unit Unit Unit where
  actions := [("hot", .effect fun _ _ => .error "too hot")]
  actors := [("bulb",
    ⟨fun _ => (), fun _ _ => ⟨(), []⟩, fun _ _ _ => ⟨(), []⟩, fun _ _ => ⟨(), []⟩⟩)]

def lampMachine : Machine Unit Unit Unit := Machine.buildD bulbs () 10 lamp

/-- The lamp was pressed twice, and taking out its bulb has failed: it is on, and has one timer
and one bulb. -/
theorem lifetimes_lamp : ∃ s, lampMachine.chart.DefaultsInside ∧ Reachable lampMachine s ∧
    s.status = .running ∧ s.timers.pending.length = 1 ∧ s.actors.length = 1 ∧
    ∃ snapshot, s.snapshot = some snapshot ∧
      (∀ timer ∈ s.timers.pending, timer.owner ∈ snapshot.configuration) ∧
      (∀ n, n ≠ root → ∀ i ∈ (lampMachine.chart.node n).invoke,
        (s.actors.filter fun a => a.handle.id = i.id).length =
          if n ∈ snapshot.configuration then 1 else 0) ∧
      ∀ a ∈ s.actors, ∃ n, (n ∈ snapshot.configuration ∨ n = root) ∧
        ∃ i ∈ (lampMachine.chart.node n).invoke, i.id = a.handle.id := by
  have hb : Machine.build bulbs () 10 lamp = .ok lampMachine :=
    Machine.build_eq_buildD (by decide +kernel)
  have hd : lampMachine.chart.DefaultsInside := by decide +kernel
  have hrun : ((do
      let s ← (ofMachine lampMachine "lamp" none).after 5 .start
      let s ← s.after 5 (.send { type := "PRESS" })
      let s ← s.after 5 (.send { type := "PRESS" })
      s.after 5 (.send { type := "UNSCREW" }) : Option (Session Unit Unit Unit)).any fun s => s.status = .running &&
        s.timers.pending.length = 1 && s.actors.length = 1) = true := by decide +kernel
  obtain ⟨s, hs, hall⟩ := (Option.any_eq_true _ _).mp hrun
  simp only [Option.bind_eq_bind, Option.bind_eq_some_iff] at hs
  obtain ⟨t, ht, u, hu, v, hv, hs⟩ := hs
  simp only [Bool.and_eq_true, decide_eq_true_eq] at hall
  have hr := ((((Reachable.initial "lamp" none).call ht).call hu).call hv).call hs
  exact ⟨s, hd, hr, hall.1.1, hall.1.2, hall.2, Reachable.lifetimes hb hd hr hall.1.1⟩

end Statechart.Session
