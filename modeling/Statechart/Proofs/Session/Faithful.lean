import Statechart.Proofs.Journal
import Statechart.Proofs.Macrostep.Rows
import Statechart.Proofs.Session.Observed
import Statechart.Proofs.Session.Strides
import Statechart.Session.Calls

/-!
# A session goes the way of its machine

Where no state invokes actors or has delayed transitions, a macrostep asks a session for nothing
but deliveries to actors, and there are none. So the queue has the events that were sent and no
others, and each of them is one macrostep of the machine, whether the events are sent one by one
after the start or all of them before. `After` says what a session that has taken over some
macrosteps has shown by then.

* `After.apply`, `After.turn`, `After.drain`: one macrostep, one event, the queue.
* `After.sendAll_running`, `After.start`: the calls.
* `faithful`: both ways of sending events, and what is seen of them.
-/
namespace Statechart

variable {C E A : Type}

/-! ## What a session has shown -/

def Observation.published? (listener : Nat) : Observation C E → Option (Snapshot C)
  | .published l snapshot => if l = listener then some snapshot else none
  | _ => none

namespace Session

variable {m : Machine C E A} {limit : Option Nat} {steps : List (Macrostep C)}
  {step : Macrostep C} {s t : Session C E A}

def published (s : Session C E A) (listener : Nat) : List (Snapshot C) :=
  s.seen.filterMap (Observation.published? listener)

/-- What a session without actors has shown to its listener and to its journal, when it has taken
over macrosteps. -/
structure After (m : Machine C E A) (limit : Option Nat) (steps : List (Macrostep C))
    (s : Session C E A) : Prop where
  machine : s.machine = m
  actors : s.actors = []
  mailbox : s.mailbox = []
  listeners : s.listeners = [0]
  time : s.time = .epoch
  snapshot : s.snapshot = steps.getLast?.map Macrostep.snapshot
  published : s.published 0 = steps.map Macrostep.snapshot
  journal : s.journal =
    { steps := Journal.newest limit (Macrostep.records .epoch none steps), limit }

/-- A session that is not started yet and has one listener. -/
def heard (m : Machine C E A) (name : String) (limit : Option Nat) : Session C E A :=
  (ofMachine m name limit).subscribe.2

namespace After

theorem initial (m : Machine C E A) (name : String) (limit : Option Nat) :
    After m limit [] (heard m name limit) := by
  refine ⟨rfl, rfl, rfl, rfl, rfl, rfl, rfl, ?_⟩
  cases limit <;> simp [heard, ofMachine, subscribe, Journal.newest, Macrostep.records]

/-- What is neither seen by the listener nor changes what it depends on. -/
theorem note (h : After m limit steps s) {o : Observation C E} (ho : o.published? 0 = none) :
    After m limit steps (s.note o) :=
  { h with
    published := by
      rw [Session.published, seen_note, List.filterMap_append, ← Session.published, h.published]
      simp [ho] }

theorem noteEffects (h : After m limit steps s) (effects : List (String × E)) :
    After m limit steps (s.noteEffects effects) ∧
      (s.noteEffects effects).status = s.status ∧ (s.noteEffects effects).queue = s.queue := by
  unfold Session.noteEffects
  induction effects generalizing s with
  | nil => exact ⟨h, rfl, rfl⟩
  | cons e effects ih => exact ih (h.note rfl)

/-- What is shown depends neither on the queue nor on the status. -/
theorem keep (h : After m limit steps s) (queue : List Queued) (status : Status) :
    After m limit steps { s with queue, status } :=
  ⟨h.machine, h.actors, h.mailbox, h.listeners, h.time, h.snapshot, h.published, h.journal⟩

theorem enqueue (h : After m limit steps s) (item : Queued) :
    After m limit steps (s.enqueue item) :=
  note (o := .queued item) (h.keep (s.queue ++ [item]) s.status) rfl

/-- Without actors, deliveries come to nothing. -/
theorem foldl_execute (h : s.actors = []) (context : C) : ∀ {commands : List Command},
    Machine.SendsOnly commands → commands.foldl (execute context) s = s
  | [], _ => rfl
  | command :: commands, hc => by
    obtain ⟨actor, event, rfl⟩ := hc command List.mem_cons_self
    have hs : s.execute context (.sendTo actor event) = s := by
      simp [execute, deliver, actor?, h]
    rw [List.foldl_cons, hs]
    exact foldl_execute h context fun c hmem => hc c (List.mem_cons_of_mem _ hmem)

theorem record (h : After m limit steps s) :
    (s.record step).journal =
      { steps := Journal.newest limit (Macrostep.records .epoch none (steps ++ [step]))
        limit } := by
  rw [Macrostep.records_append]
  have hlast : s.snapshot.map Snapshot.value = Macrostep.lastValue none steps := by
    rw [h.snapshot, Macrostep.lastValue, Option.or_none, Option.map_map]; rfl
  unfold Session.record
  dsimp only [Macrostep.records]
  split
  · rw [← Journal.push_newest, ← h.journal, ← hlast, h.time]
  · rw [List.append_nil, h.journal]

/-- A macrostep is entered in the journal and shown to the listener; nothing else changes. -/
theorem publish_record (h : After m limit steps s) :
    (s.record step).publish step.snapshot =
      { s with journal := (s.record step).journal }.note (.published 0 step.snapshot) := by
  rw [record_eq, publish, h.listeners]
  rfl

theorem shown (h : After m limit steps s) :
    After m limit (steps ++ [step])
      { (s.record step).publish step.snapshot with snapshot := some step.snapshot } := by
  rw [h.publish_record, h.record]
  refine ⟨h.machine, h.actors, h.mailbox, h.listeners, h.time, by simp, ?_, rfl⟩
  have hseen := congrArg (List.filterMap (Observation.published? 0))
    (seen_note s (.published 0 step.snapshot))
  rw [List.filterMap_append, ← Session.published, ← Session.published, h.published] at hseen
  rw [List.map_append]
  exact hseen

theorem teardown (h : After m limit steps s) : After m limit steps s.teardown := by
  have hhandles : s.handles = [] := by rw [handles, h.actors]; rfl
  rw [teardown_eq, hhandles, List.reverse_nil, List.map_nil, Array.append_empty]
  exact ⟨h.machine, rfl, h.mailbox, h.listeners, h.time, h.snapshot, h.published, h.journal⟩

/-- A macrostep that is taken over is shown, and ends the session if it completes the root. -/
theorem apply (h : After m limit steps s) (hc : Machine.SendsOnly step.commands) :
    After m limit (steps ++ [step]) (s.apply step) ∧
      (s.apply step).status = (if step.snapshot.done then .stopped else s.status) ∧
      (s.apply step).queue = if step.snapshot.done then [] else s.queue := by
  have hshown : After m limit (steps ++ [step])
      { (s.record step).publish step.snapshot with snapshot := some step.snapshot } := h.shown
  unfold Session.apply
  dsimp only
  rw [foldl_execute h.actors _ hc]
  split
  · exact ⟨hshown.teardown, rfl, rfl⟩
  · refine ⟨hshown, ?_⟩
    rw [h.publish_record]
    exact ⟨rfl, rfl⟩

theorem collect (h : After m limit steps s) : s.collect = s := collect_of_nil h.mailbox

variable [BEq C] {event : Event} {queue : List Queued}

/-- A turn of the queue is a macrostep for the next event. -/
theorem turn (hc : m.chart.SelfContained) (h : After m limit steps s)
    (hrunning : s.status = .running) (hqueue : s.queue = .external event :: queue)
    {snapshot : Snapshot C} (hlast : s.snapshot = some snapshot)
    (hstep : (m.step snapshot event .live).result = .ok step) :
    ∃ t, s.turn = .again t ∧ After m limit (steps ++ [step]) t ∧
      t.status = (if step.snapshot.done then .stopped else .running) ∧
      t.queue = if step.snapshot.done then [] else queue := by
  have hrest : After m limit steps ({ s with queue }.note (.handled event)) :=
    note (o := .handled event) (h.keep queue s.status) rfl
  obtain ⟨heffects, hstatus, hq⟩ := hrest.noteEffects (m.step snapshot event .live).effects
  obtain ⟨happlied, hstatus', hq'⟩ := heffects.apply (Machine.sendsOnly_of_step hc hstep)
  refine ⟨_, ?_, happlied, ?_, ?_⟩
  · have hcollect := h.collect
    have hturn := turn_eq_handle (s := s) (by rw [hcollect]; exact hrunning)
      (by rw [hcollect]; exact hqueue) (by simp [drops, Queued.external])
      (by rw [hcollect]; exact hlast)
    rw [hturn, hcollect, Session.handle]
    simp only [h.machine, Queued.external, hstep]
  · rw [hstatus', hstatus]
    exact congrArg (ite _ _) hrunning
  · rw [hq', hq]
    rfl

/-- With nothing in the queue, or at its end, a session has nothing to do. -/
theorem turn_idle (h : After m limit steps s) (hidle : s.status = .running → s.queue = []) :
    s.turn = .idle s := by
  have hturn := turn_eq_idle (s := s) (by rw [h.collect]; exact fun hs => .inl (hidle hs))
  rw [hturn, h.collect]

/-- Where a session stands that has worked off its queue: it runs on, unless one of the macrosteps
has completed the root. -/
structure Worked (m : Machine C E A) (limit : Option Nat) (steps more : List (Macrostep C))
    (t : Session C E A) : Prop where
  after : After m limit (steps ++ Macrostep.untilDone more) t
  status : t.status = if more.any (fun step => step.snapshot.done) then .stopped else .running
  queue : t.queue = []

/-- The queue is worked off event by event, until a macrostep completes the root. -/
theorem drain (hc : m.chart.SelfContained) : ∀ {events : List Event} {s : Session C E A}
    {steps more : List (Macrostep C)} {snapshot : Snapshot C} {fuel : Nat},
    After m limit steps s → s.status = .running → s.queue = events.map .external →
    s.snapshot = some snapshot → m.macrostepsFrom .live snapshot events = .ok more →
    events.length < fuel → ∃ t, s.drain fuel = some t.done ∧ Worked m limit steps more t
  | [], s, steps, more, snapshot, fuel + 1, h, hrunning, hqueue, _, hmore, _ => by
    cases hmore
    refine ⟨s, ?_, by simpa [Macrostep.untilDone] using h, hrunning, hqueue⟩
    rw [Session.drain, h.turn_idle fun _ => hqueue]
  | event :: events, s, steps, more, snapshot, fuel + 1, h, hrunning, hqueue, hlast, hmore,
      hfuel => by
    obtain ⟨step, rest, hstep, hrest, rfl⟩ := Machine.macrostepsFrom_cons.mp hmore
    obtain ⟨t, hturn, ht, hstatus, hq⟩ := h.turn hc hrunning hqueue hlast hstep
    have hnext : t.snapshot = some step.snapshot := by simpa using ht.snapshot
    rw [List.length_cons] at hfuel
    rw [Session.drain, hturn]
    dsimp only
    cases hdone : step.snapshot.done with
    | true =>
      -- The session has ended; the next turn finds it so.
      rw [hdone, if_pos rfl] at hstatus hq
      obtain ⟨fuel, rfl⟩ : ∃ n, fuel = n + 1 := ⟨fuel - 1, by omega⟩
      refine ⟨t, ?_, by simpa [Macrostep.untilDone, hdone] using ht, by simpa [hdone] using hstatus,
        hq⟩
      rw [Session.drain, ht.turn_idle fun _ => hq]
    | false =>
      rw [hdone, if_neg Bool.false_ne_true] at hstatus hq
      have hless : events.length < fuel := by omega
      obtain ⟨u, hu, hworked⟩ := drain hc ht hstatus hq hnext hrest hless
      refine ⟨u, hu, ?_, by simpa [hdone] using hworked.status, hworked.queue⟩
      simpa [Macrostep.untilDone, hdone] using hworked.after

end After

/-! ## Starting, and sending events one by one -/

/-- The session after events that are sent one by one, if every call succeeds. -/
def sendAll [BEq C] (fuel : Nat) (s : Session C E A) : List Event → Option (Session C E A)
  | [] => some s
  | event :: rest => do
    let reply ← s.send fuel event
    match reply.answer with
    | .error _ => none
    | .ok () => sendAll fuel reply.session rest

namespace After

variable [BEq C]

theorem sendAll_stopped (hs : s.status = .stopped) (fuel : Nat) :
    ∀ events : List Event, s.sendAll fuel events = some s
  | [] => rfl
  | event :: events => by
    rw [sendAll, send, hs]
    exact sendAll_stopped hs fuel events

theorem sendAll_waiting (fuel : Nat) : ∀ (events : List Event) {s : Session C E A},
    After m limit steps s → s.status = .notStarted →
    ∃ t, s.sendAll fuel events = some t ∧ After m limit steps t ∧ t.status = .notStarted ∧
      t.queue = s.queue ++ events.map .external
  | [], s, h, hs => ⟨s, rfl, h, hs, by simp⟩
  | event :: events, s, h, hs => by
    have hsent : After m limit steps ((s.note (.sent event)).enqueue (.external event)) :=
      (h.note (o := .sent event) rfl).enqueue _
    obtain ⟨t, ht, hafter, hstatus, hqueue⟩ := sendAll_waiting fuel events hsent hs
    refine ⟨t, ?_, hafter, hstatus, by simpa [Session.enqueue, Session.note] using hqueue⟩
    rw [sendAll, send, hs]
    exact ht

/-- A session that runs works off each event before the next is sent. -/
theorem sendAll_running (hc : m.chart.SelfContained) {fuel : Nat} (hfuel : 1 < fuel) :
    ∀ {events : List Event} {s : Session C E A} {steps more : List (Macrostep C)}
    {snapshot : Snapshot C}, After m limit steps s → s.status = .running → s.queue = [] →
    s.snapshot = some snapshot → m.macrostepsFrom .live snapshot events = .ok more →
    ∃ t, s.sendAll fuel events = some t ∧ Worked m limit steps more t
  | [], s, steps, more, snapshot, h, hs, hqueue, _, hmore => by
    cases hmore
    exact ⟨s, rfl, by simpa [Macrostep.untilDone] using h, hs, hqueue⟩
  | event :: events, s, steps, more, snapshot, h, hs, hqueue, hlast, hmore => by
    obtain ⟨step, rest, hstep, hrest, rfl⟩ := Machine.macrostepsFrom_cons.mp hmore
    have hsent : After m limit steps ((s.note (.sent event)).enqueue (.external event)) :=
      (h.note (o := .sent event) rfl).enqueue _
    have hone : m.macrostepsFrom .live snapshot [event] = .ok [step] :=
      Machine.macrostepsFrom_cons.mpr ⟨step, [], hstep, rfl, rfl⟩
    have hwaiting : ((s.note (.sent event)).enqueue (.external event)).queue =
        [event].map .external := by simp [Session.enqueue, Session.note, hqueue]
    obtain ⟨t, ht, hworked⟩ := hsent.drain hc hs hwaiting hlast hone hfuel
    have hafter : After m limit (steps ++ [step]) t := by
      simpa [Macrostep.untilDone] using hworked.after
    have hstatus : t.status = if step.snapshot.done then .stopped else .running := by
      simpa using hworked.status
    have hsend : s.sendAll fuel (event :: events) = t.sendAll fuel events := by
      rw [sendAll, send, hs, ht]; rfl
    rw [hsend]
    cases hdone : step.snapshot.done with
    | true =>
      rw [hdone, if_pos rfl] at hstatus
      refine ⟨t, sendAll_stopped hstatus fuel events, ?_, by simpa [hdone] using hstatus,
        hworked.queue⟩
      simpa [Macrostep.untilDone, hdone] using hafter
    | false =>
      rw [hdone, if_neg Bool.false_ne_true] at hstatus
      have hnext : t.snapshot = some step.snapshot := by simpa using hafter.snapshot
      obtain ⟨u, hu, hrest⟩ := sendAll_running hc hfuel hafter hstatus hworked.queue hnext hrest
      refine ⟨u, hu, ?_, by simpa [hdone] using hrest.status, hrest.queue⟩
      simpa [Macrostep.untilDone, hdone] using hrest.after

/-- A start takes over the first macrostep, and works off what was sent before. -/
theorem start (hc : m.chart.SelfContained) {events : List Event} {fuel : Nat}
    (hfuel : events.length < fuel) (h : After m limit [] s) (hs : s.status = .notStarted)
    (hqueue : s.queue = events.map .external) (hsteps : m.macrosteps .live events = .ok steps) :
    ∃ snapshot t, s.start fuel = some ⟨.ok snapshot, t⟩ ∧ Worked m limit [] steps t := by
  obtain ⟨step, rest, hstep, hrest, rfl⟩ := Machine.macrosteps_ok.mp hsteps
  obtain ⟨heffects, -, hq⟩ := h.noteEffects (m.startStep .live).effects
  obtain ⟨happlied, hstatus, hq'⟩ :=
    (heffects.keep (s.noteEffects (m.startStep .live).effects).queue .running).apply
      (Machine.sendsOnly_of_start hc hstep)
  generalize ht : Session.apply _ step = t at happlied hstatus hq'
  rw [List.nil_append] at happlied
  rw [hq, hqueue] at hq'
  have hdrain : ∃ u, t.drain fuel = some u.done ∧ Worked m limit [] (step :: rest) u := by
    cases hdone : step.snapshot.done with
    | true =>
      rw [hdone, if_pos rfl] at hstatus hq'
      obtain ⟨fuel, rfl⟩ : ∃ n, fuel = n + 1 := ⟨fuel - 1, by omega⟩
      refine ⟨t, ?_, by simpa [Macrostep.untilDone, hdone] using happlied,
        by simpa [hdone] using hstatus, hq'⟩
      rw [Session.drain, happlied.turn_idle fun _ => hq']
    | false =>
      rw [hdone, if_neg Bool.false_ne_true] at hstatus hq'
      have hnext : t.snapshot = some step.snapshot := happlied.snapshot
      obtain ⟨u, hu, hworked⟩ := happlied.drain hc hstatus hq' hnext hrest hfuel
      refine ⟨u, hu, ?_, by simpa [hdone] using hworked.status, hworked.queue⟩
      simpa [Macrostep.untilDone, hdone] using hworked.after
  obtain ⟨u, hu, hworked⟩ := hdrain
  have hlast := hworked.after.snapshot
  rw [List.nil_append, Macrostep.untilDone, List.getLast?_cons, Option.map_some] at hlast
  generalize Macrostep.snapshot _ = last at hlast
  refine ⟨last, u, ?_, hworked⟩
  rw [Session.start, hs]
  dsimp only
  rw [h.machine, hstep]
  dsimp only
  rw [ht, hu]
  simp [Session.done, current, hlast]

end After

/-- What a session shows of macrosteps: their snapshots to its listener, and those that made a
difference in its journal, the newest if that is limited. -/
structure Tells (limit : Option Nat) (steps : List (Macrostep C)) (s : Session C E A) : Prop where
  published : s.published 0 = steps.map Macrostep.snapshot
  journal : s.journal.steps = Journal.newest limit (Macrostep.records .epoch none steps)

theorem After.tells (h : After m limit steps s) : Tells limit steps s :=
  ⟨h.published, congrArg Journal.steps h.journal⟩

/-- A session goes the way of its machine. Where no state invokes actors or has delayed
transitions, and no macrostep of a row of events fails, replaying the events goes through the
snapshots of these macrosteps, and a session shows them up to the first that completes the root:
if it is started and the events are sent one by one, and also if they are sent before the start.
All these calls succeed, given turns for all events and one more. -/
theorem faithful [BEq C] (hc : m.chart.SelfContained) {events : List Event}
    (h : m.macrosteps .live events = .ok steps) (name : String) (limit : Option Nat) {fuel : Nat}
    (hfuel : events.length + 1 < fuel) :
    m.replay events = .ok (steps.map Macrostep.snapshot) ∧
      (∃ first started t, (heard m name limit).start fuel = some ⟨.ok first, started⟩ ∧
        started.sendAll fuel events = some t ∧ Tells limit (Macrostep.untilDone steps) t) ∧
      ∃ last waiting t, (heard m name limit).sendAll fuel events = some waiting ∧
        waiting.start fuel = some ⟨.ok last, t⟩ ∧ Tells limit (Macrostep.untilDone steps) t := by
  have hinitial := After.initial m name limit
  refine ⟨Machine.replay_of_macrosteps h, ?_, ?_⟩
  · obtain ⟨step, rest, hstep, hrest, rfl⟩ := Machine.macrosteps_ok.mp h
    have hone : m.macrosteps .live [] = .ok [step] :=
      Machine.macrosteps_ok.mpr ⟨step, [], hstep, rfl, rfl⟩
    have hless : ([] : List Event).length < fuel := by simp; omega
    obtain ⟨first, started, hstart, hworked⟩ := hinitial.start hc hless rfl rfl hone
    have hstarted : After m limit [step] started := by
      simpa [Macrostep.untilDone] using hworked.after
    have hstatus : started.status = if step.snapshot.done then .stopped else .running := by
      simpa using hworked.status
    cases hdone : step.snapshot.done with
    | true =>
      rw [hdone, if_pos rfl] at hstatus
      refine ⟨first, started, started, hstart, After.sendAll_stopped hstatus fuel events, ?_⟩
      simpa [Macrostep.untilDone, hdone] using hworked.after.tells
    | false =>
      rw [hdone, if_neg Bool.false_ne_true] at hstatus
      have hless : 1 < fuel := by omega
      obtain ⟨t, ht, hworked⟩ := hstarted.sendAll_running hc hless hstatus hworked.queue
        hstarted.snapshot hrest
      refine ⟨first, started, t, hstart, ht, ?_⟩
      simpa [Macrostep.untilDone, hdone] using hworked.after.tells
  · obtain ⟨waiting, hwaiting, hafter, hstatus, hqueue⟩ :=
      hinitial.sendAll_waiting fuel events rfl
    obtain ⟨last, t, hstart, hworked⟩ := hafter.start hc (Nat.lt_of_succ_lt hfuel) hstatus hqueue h
    exact ⟨last, waiting, t, hwaiting, hstart, hworked.after.tells⟩

/-- A tally that can be closed. -/
def tally : Definition := {
  key := "tally"
  initial := some "open"
  states := [
    { key := "open"
      on := [⟨"COUNT", [{ actions := [.named "count", .named "print"] }]⟩,
        ⟨"CLOSE", [{ target := ["closed"] }]⟩] },
    { key := "closed", kind := some .final }] }

def counters : Registry Nat Nat Unit where
  actions := [("count", .assign fun n _ => .ok (n + 1)), ("print", .effect fun n _ => .ok n)]

def tallyMachine : Machine Nat Nat Unit := Machine.buildD counters 0 10 tally

/-- One event makes no difference, and one comes when the tally is closed. -/
def tallied : List Event :=
  [{ type := "COUNT" }, { type := "BLOT" }, { type := "CLOSE" }, { type := "COUNT" }]

/-- The tally shows four snapshots, the third of them without a difference, and not the one after
the end; of the other three its journal keeps the newest two. -/
theorem faithful_tally : ∃ steps, tallyMachine.chart.SelfContained ∧
    tallyMachine.macrosteps .live tallied = .ok steps ∧
    steps.map (fun step => (step.snapshot.context, step.snapshot.changed, step.snapshot.done)) =
      [(0, true, false), (1, true, false), (1, false, false), (1, true, true), (1, false, true)] ∧
    tallied.length + 1 < 6 ∧
    tallyMachine.replay tallied = .ok (steps.map Macrostep.snapshot) ∧
      (∃ first started t,
        (heard tallyMachine "tally" (some 2)).start 6 = some ⟨.ok first, started⟩ ∧
          started.sendAll 6 tallied = some t ∧
          Tells (some 2) (Macrostep.untilDone steps) t) ∧
      ∃ last waiting t, (heard tallyMachine "tally" (some 2)).sendAll 6 tallied = some waiting ∧
        waiting.start 6 = some ⟨.ok last, t⟩ ∧
          Tells (some 2) (Macrostep.untilDone steps) t := by
  have hc : tallyMachine.chart.SelfContained := .of_nodes (by decide +kernel)
  have hrun : (tallyMachine.macrosteps .live tallied).toOption.any (fun steps =>
      steps.map (fun step => (step.snapshot.context, step.snapshot.changed, step.snapshot.done)) =
        [(0, true, false), (1, true, false), (1, false, false), (1, true, true),
          (1, false, true)]) = true := by decide +kernel
  obtain ⟨steps, hsteps, htest⟩ := exists_ok_of_any hrun
  exact ⟨steps, hc, hsteps, of_decide_eq_true htest, by decide,
    faithful hc hsteps "tally" (some 2) (by decide)⟩

end Session

end Statechart
