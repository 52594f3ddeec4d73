import Mathlib.Data.List.Forall2
import Statechart.Proofs.Macrostep.Sends
import Statechart.Proofs.Session.Lifetimes
import Statechart.Proofs.Session.Settled

/-!
# Deferred commands act as if carried out at once

The commands of a macrostep are carried out after it, when the configuration is another one. But
while they are carried out, the actors that run are at each point those of the configuration that
the macrostep had at that point (`Attended`): starts and stops are among the commands, in the
order of the entries and exits. So an event that an action has sent is received if the actor's
state was active when the action ran, by one actor, and dropped if it was not.

* `Attended.mem_running`: the invocations that have actors are those of active states.
* `conveyed_phases`: the commands of the phases of a macrostep.
* `Housed.takes`, `Housed.stride`: macrosteps that are taken over, and all else that calls do.
* `During.prompt`: every macrostep that a session takes over.
-/
namespace Statechart

open Chart

/-! ## Actors and the configuration -/

/-- Whether a state of a configuration has an invocation of an id. -/
def Chart.hosts (c : Chart) (configuration : NodeSet) (id : String) : Bool :=
  configuration.toList.any fun n => (c.node n).invoke.any fun i => i.id == id

theorem Chart.hosts_iff {c : Chart} {configuration : NodeSet} {id : String} :
    c.hosts configuration id = true ↔ ∃ n ∈ configuration, ∃ i ∈ (c.node n).invoke, i.id = id := by
  simp only [hosts, List.any_eq_true, beq_iff_eq]
  rfl

/-- Whether the invocation that an event is sent to is one of a state that is active then. -/
def Sent.reaches (c : Chart) (s : Sent) : Bool := c.hosts s.configuration s.actor

/-- Of what phases send, that which reaches an actor. -/
def deliveries (c : Chart) (configuration : NodeSet) (phases : List Phase) : List Sent :=
  (sends c configuration phases).filter (Sent.reaches c)

/-- The timers and actors are those of a configuration, the root included. -/
structure Attended (c : Chart) (configuration : NodeSet) (r : Resources) : Prop
    extends Follows c configuration r where
  rooted : ∀ i ∈ (c.node root).invoke, i.id ∈ r.running ↔ root ∈ configuration

namespace Attended

variable {c : Chart} {configuration : NodeSet} {r : Resources} {names : Names}

theorem empty (c : Chart) : Attended c ∅ {} :=
  ⟨follows_empty c, fun _ _ => iff_of_false List.not_mem_nil (NodeSet.mem_empty.mp ·)⟩

variable (h : c.Accepted names) (ha : Attended c configuration r)
include h ha

omit h in
/-- An invocation has an actor exactly if its state is active. -/
theorem mem_running {id : String} : id ∈ r.running ↔ c.hosts configuration id = true := by
  rw [hosts_iff]
  constructor
  · intro hid
    obtain ⟨n, hn | rfl, i, hi, rfl⟩ := ha.active id hid
    · exact ⟨n, hn, i, hi, rfl⟩
    · exact ⟨root, (ha.rooted i hi).mp hid, i, hi, rfl⟩
  · rintro ⟨n, hn, i, hi, rfl⟩
    by_cases hr : n = root
    · subst hr; exact (ha.rooted i hi).mpr hn
    · exact List.count_pos_iff.mp (by rw [ha.one n hn hr i hi]; exact Nat.one_pos)

theorem enter {n : Nat} (hn : n ∉ configuration ∨ n = root) :
    Attended c (configuration.insert n) ((Command.onEntry c n).foldl Resources.after r) := by
  refine ⟨ha.toFollows.enter h hn, fun i hi => ?_⟩
  rw [Resources.foldl_onEntry, List.mem_append, NodeSet.mem_insert, ha.rooted i hi]
  by_cases hr : root = n
  · subst hr
    exact iff_of_true (.inr (List.mem_map_of_mem hi)) (.inl rfl)
  · rw [or_iff_left (Follows.id_not_mem h hr hi), or_iff_right hr]

theorem exit {n : Nat} (hn : n ∈ configuration) (hr : n ≠ root) :
    Attended c (configuration.erase n) ((Command.onExit c n).foldl Resources.after r) := by
  refine ⟨ha.toFollows.exit h hn hr, fun i hi => ?_⟩
  rw [Resources.foldl_onExit, NodeSet.mem_erase, ← ha.rooted i hi, ← List.count_pos_iff,
    List.count_diff, List.count_eq_zero.mpr (Follows.id_not_mem h hr.symm hi), Nat.sub_zero,
    List.count_pos_iff, and_iff_left hr.symm]

end Attended

/-! ## What is seen of a delivery -/

def Observation.received? {C E : Type} : Observation C E → Option (Handle × Event)
  | .received handle event => some (handle, event)
  | _ => none

/-- An event that an actor received, and the handles of the actors that ran then. -/
structure Reception where
  running : List Handle
  handle : Handle
  event : Event

namespace Observation

variable {C E : Type} {seen more : List (Observation C E)} {handles : List Handle}

/-- The receptions that a number of observations tell of, given the handles of the actors that
ran before. -/
def receptions : List Handle → List (Observation C E) → List Reception
  | _, [] => []
  | handles, o :: seen =>
    (o.received?.map fun r => ⟨handles, r.1, r.2⟩).toList ++ receptions (o.running handles) seen

theorem receptions_append : receptions handles (seen ++ more) =
    receptions handles seen ++ receptions (runningAfter handles seen) more := by
  induction seen generalizing handles with
  | nil => rfl
  | cons o seen ih =>
    rw [List.cons_append, receptions, receptions, ih, List.append_assoc]
    rfl

theorem receptions_of_none (h : ∀ o ∈ seen, o.received? = none) : receptions handles seen = [] := by
  induction seen generalizing handles with
  | nil => rfl
  | cons o seen ih =>
    rw [receptions, h o List.mem_cons_self, ih fun p hp => h p (List.mem_cons_of_mem _ hp)]
    rfl

theorem received?_of_isCalm {o : Observation C E} (h : o.isCalm = true) : o.received? = none := by
  cases o <;> first | rfl | simp [isCalm] at h

theorem runningAfter_of_isCalm (h : ∀ o ∈ seen, o.isCalm = true) :
    runningAfter handles seen = handles := by
  induction seen generalizing handles with
  | nil => rfl
  | cons o seen ih =>
    have ho := h o List.mem_cons_self
    have hrunning : o.running handles = handles := by
      cases o <;> first | rfl | simp [isCalm] at ho
    rw [runningAfter, List.foldl_cons, hrunning]
    exact ih fun p hp => h p (List.mem_cons_of_mem _ hp)

end Observation

/-- An event that was sent is received by an actor of its id that runs. -/
structure Sent.Meets (s : Sent) (r : Reception) : Prop where
  event : r.event = s.event
  id : r.handle.id = s.actor
  running : r.handle ∈ r.running

namespace Session

open Observation

variable {C E A : Type} {m : Machine C E A} {c : Chart} {s t u : Session C E A}
  {sent more : List Sent}

/-- From `s` to `t` these events are received, one after the other, and no others. -/
def Conveyed (sent : List Sent) (s t : Session C E A) : Prop :=
  ∃ seen, t.seen = s.seen ++ seen ∧ t.handles = runningAfter s.handles seen ∧
    List.Forall₂ Sent.Meets sent (receptions s.handles seen)

namespace Conveyed

theorem trans (h : Conveyed sent s t) (h' : Conveyed more t u) : Conveyed (sent ++ more) s u := by
  obtain ⟨seen, hseen, hhandles, hmeets⟩ := h
  obtain ⟨seen', hseen', hhandles', hmeets'⟩ := h'
  refine ⟨seen ++ seen', by rw [hseen', hseen, List.append_assoc], ?_, ?_⟩
  · rw [hhandles', hhandles, runningAfter_append]
  · rw [receptions_append, ← hhandles]
    exact List.rel_append hmeets hmeets'

theorem of_none {seen : List (Observation C E)} (hseen : t.seen = s.seen ++ seen)
    (hhandles : t.handles = runningAfter s.handles seen) (h : ∀ o ∈ seen, o.received? = none) :
    Conveyed [] s t :=
  ⟨seen, hseen, hhandles, by rw [receptions_of_none h]; exact .nil⟩

theorem of_calm (h : Calm s t) : Conveyed [] s t := by
  obtain ⟨seen, hseen, hcalm⟩ := h.seen
  refine .of_none hseen ?_ fun o ho => received?_of_isCalm (hcalm o ho)
  rw [runningAfter_of_isCalm hcalm, h.handles]

theorem teardown (s : Session C E A) : Conveyed [] s s.teardown := by
  have hseen : s.teardown.seen = s.seen ++ s.handles.reverse.map fun h => .stopped h.close := by
    rw [teardown_eq]; simp [Session.seen]
  have hhandles : s.teardown.handles = runningAfter s.handles
      (s.handles.reverse.map fun h => Observation.stopped (C := C) (E := E) h.close) := by
    rw [runningAfter_all, teardown_eq]; rfl
  refine .of_none hseen hhandles fun o ho => ?_
  obtain ⟨h, -, rfl⟩ := List.mem_map.mp ho
  rfl

end Conveyed

/-! ## Commands -/

/-- From `s` to `t` no actor receives anything. -/
def Unheard (s t : Session C E A) : Prop :=
  ∃ seen, t.seen = s.seen ++ seen ∧ ∀ o ∈ seen, o.received? = none

namespace Unheard

theorem trans (h : Unheard s t) (h' : Unheard t u) : Unheard s u := by
  obtain ⟨seen, hseen, hnone⟩ := h
  obtain ⟨seen', hseen', hnone'⟩ := h'
  refine ⟨seen ++ seen', by rw [hseen', hseen, List.append_assoc], fun o ho => ?_⟩
  exact (List.mem_append.mp ho).elim (hnone o) (hnone' o)

theorem of_calm (h : Calm s t) : Unheard s t := by
  obtain ⟨seen, hseen, hcalm⟩ := h.seen
  exact ⟨seen, hseen, fun o ho => received?_of_isCalm (hcalm o ho)⟩

theorem of_trace (h : t.trace = s.trace) : Unheard s t :=
  ⟨[], by rw [Session.seen, h, List.append_nil]; rfl, by simp⟩

theorem execute {context : C} {command : Command}
    (hc : ∀ actor event, command ≠ .sendTo actor event) :
    Unheard s (s.execute context command) := by
  cases command with
  | schedule owner event delayMs => exact .of_trace rfl
  | cancelTimers owner => exact .of_trace rfl
  | invoke owner id src =>
    dsimp only [Session.execute]
    split
    · exact .of_trace rfl
    · rw [startActor_eq]
      refine Unheard.trans ?_ (.of_calm (.accept _ _ _))
      exact ⟨[.started { number := s.started, id } context], seen_note _ _, by simp [received?]⟩
  | stopActor id =>
    dsimp only [Session.execute, stopActor]
    split
    · exact .of_trace rfl
    · rename_i a _
      rw [stopRunning_eq]
      exact ⟨[.stopped a.handle.close], seen_note _ _, by simp [received?]⟩
  | sendTo actor event => exact absurd rfl (hc actor event)

end Unheard

/-- A command that is not a delivery is carried out without a reception. -/
theorem conveyed_execute {context : C} {command : Command}
    (hc : ∀ actor event, command ≠ .sendTo actor event) :
    Conveyed [] s (s.execute context command) := by
  obtain ⟨seen, hseen, hnone⟩ : Unheard s (s.execute context command) := .execute hc
  obtain ⟨seen', haside⟩ := execute_aside context s command
  obtain rfl := List.append_cancel_left (hseen.symm.trans haside.seen_eq)
  exact .of_none hseen haside.handles_eq hnone

/-- A delivery is received by one actor of its id, and dropped if there is none. -/
theorem conveyed_deliver (configuration : NodeSet) (s : Session C E A) (id : String)
    (event : Event) :
    Conveyed ([⟨configuration, id, event⟩].filter fun x => x.actor ∈ s.resources.running) s
      (s.deliver id event) := by
  obtain ⟨seen, haside⟩ := deliver_aside s id event
  cases hactor : s.actor? id with
  | none =>
    have hno : id ∉ s.resources.running := fun hrunning => by
      obtain ⟨handle, hhandle, rfl⟩ := List.mem_map.mp hrunning
      obtain ⟨a, hmem, rfl⟩ := List.mem_map.mp hhandle
      exact List.find?_eq_none.mp hactor a hmem (beq_self_eq_true _)
    have hdeliver : s.deliver id event = s := by rw [deliver, hactor]
    rw [hdeliver, List.filter_cons_of_neg (by simpa using hno), List.filter_nil]
    exact .of_calm (.of_trace (.refl s) rfl)
  | some a =>
    have hmem : a.handle ∈ s.handles := List.mem_map_of_mem (List.mem_of_find?_eq_some hactor)
    have hfound := List.find?_some hactor
    have hid : a.handle.id = id := beq_iff_eq.mp hfound
    have hrunning : id ∈ s.resources.running :=
      hid ▸ List.mem_map_of_mem (f := Handle.id) hmem
    have hseen : ∃ l, (s.deliver id event).seen = s.seen ++ .received a.handle event :: l ∧
        ∀ o ∈ l, o.isCalm = true := by
      rw [deliver, hactor]
      dsimp only
      generalize hnoted : Session.note _ (.received a.handle event) = t
      obtain ⟨l, hl, hcalm⟩ :=
        (Calm.accept t a.handle (a.source.receive a.actor a.handle event).posts).seen
      refine ⟨l, ?_, hcalm⟩
      rw [hl, ← hnoted, seen_note, List.append_assoc]
      rfl
    obtain ⟨l, hseen, hcalm⟩ := hseen
    obtain rfl := List.append_cancel_left (hseen.symm.trans haside.seen_eq)
    rw [List.filter_cons_of_pos (by simpa using hrunning), List.filter_nil]
    refine ⟨_, hseen, haside.handles_eq, ?_⟩
    rw [receptions, receptions_of_none fun o ho => received?_of_isCalm (hcalm o ho)]
    exact .cons ⟨rfl, hid, hmem⟩ .nil

theorem conveyed_deliver_of_attended {configuration : NodeSet}
    (ha : Attended c configuration s.resources) (id : String) (event : Event) :
    Conveyed ([⟨configuration, id, event⟩].filter (Sent.reaches c)) s (s.deliver id event) := by
  have hreaches : ∀ x ∈ [(⟨configuration, id, event⟩ : Sent)],
      decide (x.actor ∈ s.resources.running) = Sent.reaches c x := fun x hx => by
    rw [List.mem_singleton.mp hx]
    exact Bool.eq_iff_iff.mpr (decide_eq_true_iff.trans ha.mem_running)
  rw [← List.filter_congr hreaches]
  exact conveyed_deliver configuration s id event

section Phases

variable {context : C}

theorem conveyed_quiet {commands : List Command}
    (hc : ∀ command ∈ commands, ∀ actor event, command ≠ .sendTo actor event) :
    Conveyed [] s (commands.foldl (execute context) s) := by
  induction commands generalizing s with
  | nil => exact .of_calm (.of_trace (.refl s) rfl)
  | cons command commands ih =>
    exact (conveyed_execute (hc command List.mem_cons_self)).trans
      (ih fun d hd => hc d (List.mem_cons_of_mem _ hd))

theorem conveyed_requests {configuration : NodeSet} : ∀ (l : List (String × Event))
    {s : Session C E A}, Attended c configuration s.resources →
    Conveyed ((l.map fun x => ⟨configuration, x.1, x.2⟩).filter (Sent.reaches c)) s
      ((l.map fun x => .sendTo x.1 x.2).foldl (execute context) s)
  | [], s, _ => .of_calm (.of_trace (.refl s) rfl)
  | x :: l, s, ha => by
    have hrest : Attended c configuration (s.deliver x.1 x.2).resources := by
      rw [(deliver_frame s x.1 x.2).resources]; exact ha
    have hconveyed := (conveyed_deliver_of_attended ha x.1 x.2).trans (conveyed_requests l hrest)
    rwa [← List.filter_append] at hconveyed

theorem onEntry_quiet (c : Chart) (n : Nat) :
    ∀ command ∈ Command.onEntry c n, ∀ actor event, command ≠ .sendTo actor event := by
  intro command hc actor event he
  subst he
  simp [Command.onEntry] at hc

theorem onExit_quiet (c : Chart) (n : Nat) :
    ∀ command ∈ Command.onExit c n, ∀ actor event, command ≠ .sendTo actor event := by
  intro command hc actor event he
  subst he
  rcases List.mem_append.mp hc with hc | hc
  · split at hc <;> simp at hc
  · simp at hc

/-- Deliveries neither start nor stop anything. -/
theorem foldl_requests (l : List (String × Event)) (r : Resources) :
    (l.map fun x => Command.sendTo x.1 x.2).foldl Resources.after r = r := by
  induction l with
  | nil => rfl
  | cons x l ih => exact ih

variable (context)

theorem conveyed_phase {names : Names} (h : c.Accepted names) {configuration : NodeSet} {p : Phase}
    (hn : Numbered s) (ha : Attended c configuration s.resources)
    (hfit : Move.FitAll configuration p.moves)
    (hk : ∀ command ∈ p.commands c, command.Known s.machine.registry) :
    Conveyed ((p.sends c configuration).filter (Sent.reaches c)) s
        ((p.commands c).foldl (execute context) s) ∧
      Attended c (p.apply configuration) ((p.commands c).foldl (execute context) s).resources := by
  rw [(foldl_execute_resources context hn hk).2]
  cases p with
  | exit n =>
    -- The exit actions run first, while the state is active.
    simp only [Phase.commands, Action.requests_eq, List.foldl_append, foldl_requests]
    refine ⟨?_, ha.exit h hfit.1.1 hfit.1.2⟩
    rw [← List.append_nil (List.filter _ _)]
    exact (conveyed_requests _ ha).trans (conveyed_quiet (onExit_quiet c n))
  | act t =>
    simp only [Phase.commands, Action.requests_eq, foldl_requests]
    exact ⟨conveyed_requests _ ha, ha⟩
  | enter n =>
    -- The entry actions run when the actors of the state have been started.
    simp only [Phase.commands, Action.requests_eq, List.foldl_append, foldl_requests]
    have hentered : Attended c (configuration.insert n)
        ((Command.onEntry c n).foldl (execute context) s).resources := by
      rw [(foldl_execute_resources context hn fun command hc =>
        hk command (List.mem_append_left _ hc)).2]
      exact ha.enter h hfit.1
    refine ⟨?_, ha.enter h hfit.1⟩
    exact (conveyed_quiet (onEntry_quiet c n)).trans (conveyed_requests _ hentered)

/-- The commands of phases that fit are received as they are sent. -/
theorem conveyed_phases {names : Names} (h : c.Accepted names) : ∀ {phases : List Phase}
    {configuration : NodeSet} {s : Session C E A}, Numbered s →
    Attended c configuration s.resources →
    Move.FitAll configuration (phases.flatMap Phase.moves) →
    (∀ command ∈ phases.flatMap (Phase.commands c), command.Known s.machine.registry) →
    Conveyed (deliveries c configuration phases) s
        ((phases.flatMap (Phase.commands c)).foldl (execute context) s) ∧
      Attended c (phases.foldl Phase.apply configuration)
        ((phases.flatMap (Phase.commands c)).foldl (execute context) s).resources
  | [], _, s, _, ha, _, _ => ⟨.of_calm (.of_trace (.refl s) rfl), ha⟩
  | p :: phases, configuration, s, hn, ha, hfit, hk => by
    rw [List.flatMap_cons, Move.fitAll_append] at hfit
    rw [List.flatMap_cons] at hk ⊢
    have hfirst := fun command hc => hk command (List.mem_append_left _ hc)
    obtain ⟨hconveyed, hattended⟩ := conveyed_phase context h hn ha hfit.1 hfirst
    obtain ⟨hn', -⟩ := foldl_execute_resources context hn hfirst
    have hnext : p.moves.foldl Move.apply configuration = p.apply configuration := by
      cases p <;> rfl
    obtain ⟨hconveyed', hattended'⟩ := conveyed_phases h hn' hattended (hnext ▸ hfit.2)
      fun command hc => by
        rw [(foldl_execute_machine context _ s).1]
        exact hk command (List.mem_append_right _ hc)
    rw [List.foldl_append, deliveries, sends, List.filter_append]
    exact ⟨hconveyed.trans hconveyed', hattended'⟩

end Phases

/-! ## Macrosteps that are taken over -/

/-- The actors of a session are those of its configuration while it runs. -/
structure Housed (m : Machine C E A) (s : Session C E A) : Prop extends Coupled m s where
  rooted : s.status = .running → ∀ snapshot, s.snapshot = some snapshot →
    ∀ i ∈ (m.chart.node root).invoke, i.id ∈ s.resources.running ↔ root ∈ snapshot.configuration

/-- From `s` to `t` a macrostep is taken over that begins in a configuration and has these
phases: it has performed them, and what they send is received as they send it. -/
structure Delivers (m : Machine C E A) (configuration : NodeSet) (phases : List Phase)
    (step : Macrostep C) (s t : Session C E A) : Prop where
  performed : ∃ x, Performs m.chart m.registry configuration phases x ∧ Machine.Yields x step
  conveyed : Conveyed (deliveries m.chart configuration phases) s t
  snapshot : t.snapshot = some step.snapshot

/-- From `s` to `t` a session takes over a macrostep that begins in a configuration and has these
phases: its start, or the handling of an event at its turn. -/
inductive Takes [BEq C] : Session C E A → NodeSet → List Phase → Macrostep C → Session C E A → Prop
  | start {s : Session C E A} {step : Macrostep C} (hs : s.status = .notStarted)
      (h : (s.machine.startStep .live).result = .ok step) :
      Takes s ∅ (s.machine.startPhases .live) step
        ({ s.noteEffects (s.machine.startStep .live).effects with status := .running }.apply step)
  | turn {s : Session C E A} {item : Queued} {rest : List Queued} {snapshot : Snapshot C}
      {step : Macrostep C} (hs : s.status = .running) (hq : s.collect.queue = item :: rest)
      (hd : s.collect.drops item = false) (hc : s.snapshot = some snapshot)
      (h : (s.machine.step snapshot item.event .live).result = .ok step) :
      Takes s snapshot.configuration (s.machine.stepPhases .live snapshot item.event) step
        s.turn.session

namespace Housed

theorem of_stopped (hm : s.machine = m) (hs : s.status = .stopped) : Housed m s :=
  ⟨.of_stopped hm hs, fun hr => by rw [hs] at hr; cases hr⟩

theorem frame (hh : Housed m s) (hf : Frame s t) : Housed m t :=
  ⟨hh.toCoupled.frame hf, by rw [hf.status, hf.snapshot, hf.resources]; exact hh.rooted⟩

theorem timers (hh : Housed m s) {timers : Timers}
    (hsub : ∀ x ∈ timers.pending, x ∈ s.timers.pending) : Housed m { s with timers } :=
  ⟨hh.toCoupled.timers hsub, hh.rooted⟩

theorem ofMachine (m : Machine C E A) (name : String) (journalLimit : Option Nat) :
    Housed m (ofMachine m name journalLimit) :=
  ⟨coupled_ofMachine m name journalLimit, nofun⟩

theorem upon (hh : Housed m s) (call : Call) : Housed m (s.upon call) := by
  cases call with
  | send event =>
    dsimp only [Session.upon]
    split
    · exact hh
    · exact (hh.frame (note_frame _ _)).frame (enqueue_frame _ _)
  | stop => exact .of_stopped (hh.toCoupled.upon .stop).machine (stop_status s)
  | post number event => exact hh.frame (post_frame s number event)
  | subscribe => exact hh.frame ⟨rfl, rfl, rfl, rfl, rfl, rfl⟩
  | unsubscribe listener => exact hh.frame ⟨rfl, rfl, rfl, rfl, rfl, rfl⟩
  | takeTrace => exact hh.frame ⟨rfl, rfl, rfl, rfl, rfl, rfl⟩
  | clock time => exact hh.frame ⟨rfl, rfl, rfl, rfl, rfl, rfl⟩
  | start => exact hh
  | flush => exact hh
  | advance ms => exact hh

section Accepted

variable (h : m.chart.Accepted m.registry.names)
include h

/-- A macrostep that is applied delivers its events, and leaves the actors with its
configuration. -/
theorem apply {configuration : NodeSet} {phases : List Phase} {step : Macrostep C}
    {y : Execution C E} (hm : s.machine = m) (hs : s.status = .running) (hn : Numbered s)
    (ha : Attended m.chart configuration s.resources)
    (hy : Tracked m.chart m.registry configuration y phases) (hyields : Machine.Yields y step) :
    Housed m (s.apply step) ∧ Delivers m configuration phases step s (s.apply step) := by
  obtain ⟨hconfiguration, -, hcommands⟩ := hy.performed.written
  have hcontained : m.chart.Contained step.snapshot.configuration step.snapshot.history := by
    rw [hyields.configuration, hyields.history]; exact hy.contained
  have hleads : m.chart.Leads configuration step.snapshot.configuration step.commands := by
    rw [hyields.configuration, hyields.commands]; exact hy.leads
  have hcoupled := Coupled.apply h hm hs hn ha.toFollows hcontained hleads
  have hknown : ∀ command ∈ phases.flatMap (Phase.commands m.chart),
      command.Known s.machine.registry := by
    rw [hm]; exact (trail_phases m.chart phases).known h
  obtain ⟨hconveyed, hattended⟩ :=
    conveyed_phases step.snapshot.context h hn ha hy.fits hknown
  rw [← hcommands, ← hyields.commands] at hconveyed hattended
  rw [← hconfiguration, ← hyields.configuration] at hattended
  obtain ⟨t, ht, happly⟩ := apply_eq s step
  have hshown : Conveyed (deliveries m.chart configuration phases) s
      { t with snapshot := some step.snapshot } := by
    have := hconveyed.trans (.of_calm ht)
    rwa [List.append_nil] at this
  cases hdone : step.snapshot.done with
  | true =>
    rw [hdone, if_pos rfl] at happly
    rw [happly] at hcoupled ⊢
    refine ⟨.of_stopped hcoupled.machine (teardown_spec _).2, ⟨y, hy.performed, hyields⟩, ?_, ?_⟩
    · have := hshown.trans (.teardown _)
      rwa [List.append_nil] at this
    · rw [teardown_eq]
  | false =>
    rw [hdone, if_neg Bool.false_ne_true] at happly
    rw [happly] at hcoupled ⊢
    refine ⟨⟨hcoupled, fun _ snapshot hsnapshot i hi => ?_⟩,
      ⟨y, hy.performed, hyields⟩, hshown, rfl⟩
    cases hsnapshot
    have hroot := hattended.rooted i hi
    rw [← ht.resources] at hroot
    exact hroot

variable [BEq C] (hd : m.chart.DefaultsInside)
include hd

theorem started (hh : Housed m s) (hs : s.status = .notStarted) {step : Macrostep C}
    (hstep : (m.startStep .live).result = .ok step) :
    Housed m
        ({ s.noteEffects (m.startStep .live).effects with status := .running }.apply step) ∧
      Delivers m ∅ (m.startPhases .live) step s
        ({ s.noteEffects (m.startStep .live).effects with status := .running }.apply step) := by
  obtain ⟨hn, hr⟩ := hh.fresh hs
  have hcalm := Calm.noteEffects s (m.startStep .live).effects
  obtain ⟨y, hy, hyields⟩ := Machine.startStep_tracked h hd hstep
  have hn' := hcalm.numbered hn
  have hattended : Attended m.chart ∅
      (s.noteEffects (m.startStep .live).effects).resources := by
    rw [hcalm.resources, hr]; exact .empty m.chart
  obtain ⟨hhoused, hdelivers⟩ := apply h
    (s := { s.noteEffects (m.startStep .live).effects with status := .running })
    (hcalm.machine.trans hh.machine) rfl ⟨hn'.nodup, hn'.lt⟩ hattended hy hyields
  exact ⟨hhoused, hdelivers.performed, (Conveyed.of_calm hcalm).trans hdelivers.conveyed,
    hdelivers.snapshot⟩

theorem handle (hh : Housed m s) (hs : s.status = .running) {snapshot : Snapshot C}
    (he : s.snapshot = some snapshot) (event : Event) :
    Housed m (s.handle snapshot event).session ∧
      ∀ step, (m.step snapshot event .live).result = .ok step →
        Delivers m snapshot.configuration (m.stepPhases .live snapshot event) step s
          (s.handle snapshot event).session := by
  obtain ⟨current, hcurrent, hcontained, hn, hfollows⟩ := hh.running hs
  obtain rfl : current = snapshot := Option.some.inj (hcurrent.symm.trans he)
  have hcalm := (Calm.note s (o := .handled event) rfl).trans
    (.noteEffects _ (m.step current event .live).effects)
  unfold Session.handle
  rw [hh.machine]
  dsimp only
  cases hstep : (m.step current event .live).result with
  | error failure => exact ⟨hh.frame hcalm.toFrame, nofun⟩
  | ok step =>
    obtain ⟨y, hy, hyields⟩ := Machine.step_tracked h hd hcontained hstep
    have hattended : Attended m.chart current.configuration
        ((s.note (.handled event)).noteEffects (m.step current event .live).effects).resources := by
      rw [hcalm.resources]; exact ⟨hfollows, hh.rooted hs current he⟩
    obtain ⟨hhoused, hdelivers⟩ := apply h (hcalm.machine.trans hh.machine)
      (hcalm.status.trans hs) (hcalm.numbered hn) hattended hy hyields
    refine ⟨hhoused, fun _ hok => ?_⟩
    cases hok
    exact ⟨hdelivers.performed, (Conveyed.of_calm hcalm).trans hdelivers.conveyed,
      hdelivers.snapshot⟩

theorem turn (hh : Housed m s) : Housed m s.turn.session := by
  have hc := hh.frame (collect_frame s)
  have hrest (rest : List Queued) : Housed m { s.collect with queue := rest } :=
    hc.frame ⟨rfl, rfl, rfl, rfl, rfl, rfl⟩
  have ht := s.took
  generalize s.turn = turn at ht ⊢
  cases ht with
  | idle _ => exact hc
  | @dropped item rest snapshot _ _ _ _ => exact (hrest rest).frame (note_frame _ _)
  | @handled item rest snapshot hs _ _ he => exact ((hrest rest).handle h hd hs he item.event).1

/-- Every stride keeps the actors with the configuration. -/
theorem stride (hh : Housed m s) (hst : Stride s t) : Housed m t := by
  cases hst with
  | unstarted hs he => exact hh.frame (noteEffects_frame _ _)
  | started hs he =>
    rw [hh.machine] at he ⊢
    exact (hh.started h hd hs he).1
  | turn => exact hh.turn h hd
  | fired hs ht =>
    unfold Timers.take? at ht
    obtain ⟨x, -, hx⟩ := Option.map_eq_some_iff.mp ht
    cases hx
    exact ((hh.timers fun y hy => List.mem_of_mem_erase hy).frame (note_frame _ _)).frame
      (enqueue_frame _ _)
  | waited _ => exact hh.timers fun _ hx => hx

/-- A macrostep that is taken over delivers what its phases send. -/
theorem takes {configuration : NodeSet} {phases : List Phase} {step : Macrostep C}
    (hh : Housed m s) (ht : Takes s configuration phases step t) :
    Delivers m configuration phases step s t := by
  cases ht with
  | start hs hstep =>
    rw [hh.machine] at hstep ⊢
    exact (hh.started h hd hs hstep).2
  | @turn item rest snapshot _ hs hq hdrops hc hstep =>
    have hcalm : Calm s { s.collect with queue := rest } := (Calm.collect s).trans
      (.of_trace ⟨rfl, rfl, rfl, rfl, rfl, rfl⟩ rfl)
    have hturn := turn_eq_handle ((collect_frame s).status.trans hs) hq hdrops
      ((collect_frame s).snapshot.trans hc)
    rw [hh.machine] at hstep ⊢
    have hdelivers := ((hh.frame hcalm.toFrame).handle h hd (hcalm.status.trans hs)
      (hcalm.snapshot.trans hc) item.event).2 _ hstep
    rw [hturn]
    exact ⟨hdelivers.performed, (Conveyed.of_calm hcalm).trans hdelivers.conveyed,
      hdelivers.snapshot⟩

end Accepted

end Housed

/-- Deferred commands act as if carried out at once. Whatever was called before: in every
macrostep that a session of a built machine takes over, each event that an action has sent is
received once, by an actor of its id that runs, if the state with that invocation was active when
the action ran, and not at all otherwise; and nothing else is received. The actors receive in the
order of the actions. -/
theorem During.prompt [BEq C] {registry : Registry C E A} {context : C} {maxMicrosteps : Nat}
    {d : Definition} (hb : Machine.build registry context maxMicrosteps d = .ok m)
    (hd : m.chart.DefaultsInside) {calls : List Call} (hr : During m calls s)
    {configuration : NodeSet} {phases : List Phase} {step : Macrostep C}
    (ht : Takes s configuration phases step t) :
    t.snapshot = some step.snapshot ∧
      (∃ x, Performs m.chart m.registry configuration phases x ∧ Machine.Yields x step) ∧
      ∃ seen, t.seen = s.seen ++ seen ∧
        List.Forall₂ Sent.Meets (deliveries m.chart configuration phases)
          (receptions s.handles seen) := by
  have h : m.chart.Accepted m.registry.names := by
    rw [Machine.registry_of_build hb]; exact Machine.accepted_of_build hb
  have hh : Housed m s :=
    hr.of_stride (P := fun _ s => Housed m s) (.ofMachine m) (fun _ _ call hh => hh.upon call)
      fun _ _ _ hh => hh.stride h hd
  obtain ⟨hperformed, ⟨seen, hseen, -, hmeets⟩, hsnapshot⟩ := hh.takes h hd ht
  exact ⟨hsnapshot, hperformed, seen, hseen, hmeets⟩

/-- A bell that opens again whenever it is hushed. A clapper hangs in it while it is open, and
something is sent to it at every entry, exit and change. -/
def bell : Definition := {
  key := "bell"
  initial := some "open"
  states := [
    { key := "open"
      entry := [.sendTo "clapper" { type := "FIRST" }]
      exit := [.sendTo "clapper" { type := "LAST" }]
      on := [⟨"PULL", [{
        target := ["hushed"]
        actions := [.sendTo "clapper" { type := "PASSING" }] }]⟩]
      invoke := [{ id := some "clapper", src := "iron" }] },
    { key := "hushed"
      entry := [.sendTo "clapper" { type := "MUTE" }]
      always := [{ target := ["open"] }] }] }

/-- A clapper does nothing but swing. -/
def clappers : Registry Unit Unit Unit where
  actors := [("iron",
    ⟨fun _ => (), fun _ _ => ⟨(), []⟩, fun _ _ _ => ⟨(), []⟩, fun _ _ => ⟨(), []⟩⟩)]

def bellMachine : Machine Unit Unit Unit := Machine.buildD clappers () 10 bell

def pull : Event := { type := "PULL" }

/-- The bell is pulled: its clapper gets the last strike, and a new one the first; what is sent in
between finds none. -/
theorem prompt_bell : ∃ calls s configuration phases step t, bellMachine.chart.DefaultsInside ∧
    During bellMachine calls s ∧ Takes s configuration phases step t ∧
    (sends bellMachine.chart configuration phases).map (fun s => s.event.type) =
      ["LAST", "PASSING", "MUTE", "FIRST"] ∧
    (deliveries bellMachine.chart configuration phases).map (fun s => s.event.type) =
      ["LAST", "FIRST"] ∧
    t.snapshot = some step.snapshot ∧
      (∃ x, Performs bellMachine.chart bellMachine.registry configuration phases x ∧
        Machine.Yields x step) ∧
      ∃ seen, t.seen = s.seen ++ seen ∧
        List.Forall₂ Sent.Meets (deliveries bellMachine.chart configuration phases)
          (receptions s.handles seen) := by
  have hb : Machine.build clappers () 10 bell = .ok bellMachine :=
    Machine.build_eq_buildD (by decide +kernel)
  have hd : bellMachine.chart.DefaultsInside := by decide +kernel
  have hrun : ((ofMachine bellMachine "bell" none).after 5 .start).any (fun s =>
      let s := s.upon (.send pull)
      s.status = .running && s.collect.queue = [.external pull] && s.snapshot.any fun snapshot =>
        (s.machine.step snapshot pull .live).result.isOk &&
        let phases := s.machine.stepPhases .live snapshot pull
        (sends bellMachine.chart snapshot.configuration phases).map (fun s => s.event.type) =
            ["LAST", "PASSING", "MUTE", "FIRST"] &&
        (deliveries bellMachine.chart snapshot.configuration phases).map (fun s => s.event.type) =
            ["LAST", "FIRST"]) = true := by decide +kernel
  obtain ⟨u, hu, hall⟩ := (Option.any_eq_true _ _).mp hrun
  have hr : During bellMachine ([.start] ++ [.send pull]) (u.upon (.send pull)) :=
    .amid (.call (.initial "bell" none) hu) .refl
  generalize u.upon (.send pull) = s at hr hall
  simp only [Bool.and_eq_true, decide_eq_true_eq] at hall
  obtain ⟨⟨hs, hq⟩, hall⟩ := hall
  obtain ⟨snapshot, hc, hall⟩ := (Option.any_eq_true _ _).mp hall
  simp only [Bool.and_eq_true, decide_eq_true_eq] at hall
  obtain ⟨hok, hsends, hdeliveries⟩ := hall
  cases hstep : (s.machine.step snapshot pull .live).result with
  | error failure => rw [hstep] at hok; cases hok
  | ok step =>
    have ht := Takes.turn hs hq rfl hc hstep
    exact ⟨_, s, _, _, step, _, hd, hr, ht, hsends, hdeliveries, During.prompt hb hd hr ht⟩

end Session

end Statechart
