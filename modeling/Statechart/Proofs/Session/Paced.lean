import Mathlib.Data.List.Count
import Mathlib.Order.WellFounded
import Statechart.Proofs.Chart.Preorder
import Statechart.Proofs.Session.Clock

/-!
# Letting time pass comes to an end

A call that lets time pass fires timers until none is left that is due by the end of that time. A
macrostep may schedule new timers, and these may be due within the same call, so the timers that
are pending do not get fewer. But if every delay takes at least a millisecond, then nothing that a
macrostep schedules is due at once. So either the clock moves on towards the end of the call with
the timer that fires, or the clock stands and there is one timer less that is due by now
(`take?_nearer`); and what follows from the event of the timer takes no time and makes no timer
due (`Steady`).

Without actors nothing comes to the queue while it is worked off, so that comes to an end too: each
turn takes an event away. A macrostep itself always comes to an outcome (`Machine.ends_rounds`).

* `Timers.take?_nearer`, `Timers.Steady.nearer`: the measure of a call that lets time pass.
* `Alone.apply`, `Alone.turn`: one macrostep, one turn of the queue.
* `Alone.stride`: sessions without actors stay so.
* `Alone.drain`, `Alone.fire`: working off the queue, and firing.
* `Reachable.advance_returns`: the call, after any calls.
-/
namespace Statechart

/-! ## Delays that take time -/

/-- No state invokes actors, and every delay is at least a millisecond. -/
def Definition.Paced (d : Definition) : Prop :=
  ∀ s ∈ d.preorder, s.invoke = [] ∧ ∀ a ∈ s.after, 1 ≤ a.delayMs

instance (d : Definition) : Decidable d.Paced :=
  inferInstanceAs (Decidable (∀ s ∈ d.preorder, s.invoke = [] ∧ ∀ a ∈ s.after, 1 ≤ a.delayMs))

/-- The same of the states of a chart. -/
structure Chart.Paced (c : Chart) : Prop where
  invoke (n : Nat) : (c.node n).invoke = []
  after (n : Nat) : ∀ d ∈ (c.node n).after, 1 ≤ d.delayMs

theorem Layout.paced_chart {d : Definition} (h : d.Paced) : (ofDefinition d).chart.Paced := by
  have hall : ∀ n, ((ofDefinition d).chart.node n).invoke = [] ∧
      ∀ a ∈ ((ofDefinition d).chart.node n).after, 1 ≤ a.delayMs := fun n => by
    rcases node_cases (ofDefinition d) n with e | ⟨hn, e⟩ <;> rw [e]
    · exact ⟨rfl, nofun⟩
    · obtain ⟨hinvoke, hafter⟩ := h _ (definition_mem_preorder d hn)
      refine ⟨?_, fun a ha => ?_⟩
      · simp only [node, Slot.invocations, hinvoke, Slot.invocationsFrom]
      · obtain ⟨b, hb, rfl⟩ := List.mem_map.mp ha
        exact hafter b hb
  exact ⟨fun n => (hall n).1, fun n => (hall n).2⟩

/-- The command schedules nothing that is due at once, and starts no actor. -/
def Command.Paced : Command → Prop
  | .schedule _ _ delayMs => 1 ≤ delayMs
  | .invoke _ _ _ => False
  | .cancelTimers _ | .stopActor _ | .sendTo _ _ => True

theorem Trail.paced {c : Chart} (h : c.Paced) {moves : List Move} {commands : List Command}
    (ht : Trail c moves commands) : ∀ command ∈ commands, command.Paced := by
  refine ht.forall_mem (fun _ _ => trivial) (fun n command hm => ?_) fun n command hm => ?_
  · rw [Command.onEntry, h.invoke, List.map_nil, List.append_nil] at hm
    obtain ⟨d, hd, rfl⟩ := List.mem_map.mp hm
    exact h.after n d hd
  · rw [Command.onExit, h.invoke, List.map_nil, List.append_nil] at hm
    split at hm
    · exact absurd hm List.not_mem_nil
    · rw [List.mem_singleton.mp hm]; trivial

/-! ## How far the clock is from the end -/

namespace Timers

variable {t u v : Timers} {limit : Nat}

/-- How many timers are due by now. -/
def overdue (t : Timers) : Nat := t.pending.countP fun x => x.due ≤ t.now

/-- What a call that lets time pass has before it: the time until its end, then the timers that
are due by now. -/
def ahead (limit : Nat) (t : Timers) : Nat × Nat := (limit - t.now, t.overdue)

/-- No time passes from `t` to `u`, and no timer comes to be due. -/
structure Steady (t u : Timers) : Prop where
  now : u.now = t.now
  overdue : u.overdue ≤ t.overdue

namespace Steady

theorem refl (t : Timers) : Steady t t := ⟨rfl, Nat.le_refl _⟩

theorem trans (h : Steady t u) (h' : Steady u v) : Steady t v :=
  ⟨h'.now.trans h.now, Nat.le_trans h'.overdue h.overdue⟩

theorem sublist {pending : List Timer} (h : pending.Sublist t.pending) :
    Steady t { t with pending } := ⟨rfl, h.countP_le⟩

theorem schedule (t : Timers) (owner : Nat) (event : Event) {delayMs : Nat} (h : 1 ≤ delayMs) :
    Steady t (t.schedule owner event delayMs) := by
  have hlater : ¬ t.now + delayMs ≤ t.now := by omega
  refine ⟨rfl, Nat.le_of_eq ?_⟩
  rw [Timers.overdue, Timers.schedule, List.countP_append, List.countP_singleton,
    if_neg fun hdue => hlater (of_decide_eq_true hdue)]
  rfl

theorem after (t : Timers) {command : Command} (h : command.Paced) :
    Steady t (t.after command) := by
  cases command with
  | schedule owner event delayMs => exact schedule t owner event h
  | cancelTimers owner => exact sublist List.filter_sublist
  | invoke owner id src => exact h.elim
  | stopActor id => exact refl t
  | sendTo actor event => exact refl t

theorem foldl_after : ∀ {commands : List Command} (t : Timers),
    (∀ command ∈ commands, command.Paced) → Steady t (commands.foldl Timers.after t)
  | [], t, _ => refl t
  | _ :: _, t, h =>
    (after t (h _ List.mem_cons_self)).trans
      (foldl_after _ fun command hm => h command (List.mem_cons_of_mem _ hm))

/-- What takes no time and makes no timer due does not lead away from the end. -/
theorem nearer (h : Steady u v)
    (hn : Prod.Lex (· < ·) (· < ·) (u.ahead limit) (t.ahead limit)) :
    Prod.Lex (· < ·) (· < ·) (v.ahead limit) (t.ahead limit) := by
  have hnow := h.now
  have hoverdue := h.overdue
  simp only [Prod.lex_def, ahead] at hn ⊢
  omega

end Steady

/-- A timer that fires brings the clock nearer to the end. Either the clock moves on, or it
stands and the timer was one of those that are due by now. -/
theorem take?_nearer {x : Timer} (h : t.take? limit = some (x, u)) :
    Prod.Lex (· < ·) (· < ·) (u.ahead limit) (t.ahead limit) := by
  obtain ⟨hx, hdue, -, rfl⟩ := take?_spec h
  simp only [Prod.lex_def, ahead]
  by_cases hlate : x.due ≤ t.now
  · refine .inr ⟨by rw [Nat.max_eq_left hlate], ?_⟩
    have hpos : 0 < t.overdue := List.countP_pos_iff.mpr ⟨x, hx, decide_eq_true hlate⟩
    have herase : (t.pending.erase x).countP (fun y => y.due ≤ t.now) = t.overdue - 1 := by
      rw [List.countP_erase, if_pos ⟨hx, decide_eq_true hlate⟩, overdue]
    simp only [overdue, Nat.max_eq_left hlate, herase]
    exact Nat.sub_lt hpos Nat.one_pos
  · exact .inl (by omega)

end Timers

namespace Session

variable {C E A : Type} {m : Machine C E A} {s t : Session C E A}

/-! ## Sessions without actors -/

/-- A session of a machine that runs no actors, and so has no posts. -/
structure Alone (m : Machine C E A) (s : Session C E A) : Prop where
  machine : s.machine = m
  actors : s.actors = []
  mailbox : s.mailbox = []

/-- `t` comes from `s` without actors: no time has passed, no timer has come to be due, and nothing
has come to the queue. -/
structure Eases (m : Machine C E A) (s t : Session C E A) : Prop where
  alone : Alone m t
  timers : s.timers.Steady t.timers
  queue : t.queue.length ≤ s.queue.length

theorem Eases.trans {u : Session C E A} (h : Eases m s t) (h' : Eases m t u) : Eases m s u :=
  ⟨h'.alone, h.timers.trans h'.timers, Nat.le_trans h'.queue h.queue⟩

namespace Alone

theorem noteEffects (h : Alone m s) (effects : List (String × E)) :
    Alone m (s.noteEffects effects) := by
  rw [noteEffects_eq]
  exact ⟨h.machine, h.actors, h.mailbox⟩

theorem teardown (h : Alone m s) : Alone m s.teardown := by
  rw [teardown_eq]
  exact ⟨h.machine, rfl, h.mailbox⟩

theorem execute (h : Alone m s) (context : C) {command : Command} (hc : command.Paced) :
    s.execute context command = { s with timers := s.timers.after command } := by
  have hnone (id : String) : s.actor? id = none := by rw [actor?, h.actors]; rfl
  cases command with
  | schedule owner event delayMs => rfl
  | cancelTimers owner => rfl
  | invoke owner id src => exact hc.elim
  | stopActor id => rw [Session.execute, stopActor, hnone]; rfl
  | sendTo actor event => rw [Session.execute, deliver, hnone]; rfl

theorem foldl_execute (context : C) : ∀ {commands : List Command} {s : Session C E A},
    Alone m s → (∀ command ∈ commands, command.Paced) →
    commands.foldl (Session.execute context) s =
      { s with timers := commands.foldl Timers.after s.timers }
  | [], _, _, _ => rfl
  | command :: commands, s, h, hc => by
    rw [List.foldl_cons, h.execute context (hc _ List.mem_cons_self)]
    exact foldl_execute context (s := { s with timers := s.timers.after command })
      ⟨h.machine, h.actors, h.mailbox⟩ fun d hd => hc d (List.mem_cons_of_mem _ hd)

/-- A macrostep that is taken over changes timers, journal, trace and snapshot only, unless it ends
the session. -/
theorem apply_eq (h : Alone m s) {step : Macrostep C}
    (hc : ∀ command ∈ step.commands, command.Paced) :
    ∃ t, Alone m t ∧ t.queue = s.queue ∧
      s.apply step = if step.snapshot.done then t.teardown else t := by
  let taken : Session C E A := { s with timers := step.commands.foldl Timers.after s.timers }
  refine ⟨{ taken with
      journal := (taken.record step).journal
      trace := ((taken.record step).publish step.snapshot).trace
      snapshot := some step.snapshot }, ⟨h.machine, h.actors, h.mailbox⟩, rfl, ?_⟩
  unfold Session.apply
  dsimp only
  rw [foldl_execute _ h hc, publish_eq, record_eq]

/-- A macrostep that is taken over makes no timer due, and puts nothing in the queue. -/
theorem apply (h : Alone m s) {step : Macrostep C}
    (hc : ∀ command ∈ step.commands, command.Paced) : Eases m s (s.apply step) := by
  have hsteady := Timers.Steady.foldl_after s.timers hc
  have htimers : s.timers.Steady (s.apply step).timers := by
    rw [apply_timers]
    split
    · exact hsteady.trans (.sublist (List.nil_sublist _))
    · exact hsteady
  obtain ⟨t, ht, hqueue, he⟩ := h.apply_eq hc
  refine ⟨?_, htimers, ?_⟩ <;> rw [he] <;> split
  · exact ht.teardown
  · exact ht
  · exact Nat.zero_le _
  · exact Nat.le_of_eq (congrArg List.length hqueue)

theorem upon (h : Alone m s) (call : Call) : Alone m (s.upon call) := by
  cases call with
  | send event =>
    dsimp only [Session.upon]
    split
    · exact h
    · exact ⟨h.machine, h.actors, h.mailbox⟩
  | stop =>
    dsimp only [Session.upon]
    unfold Session.stop
    split
    · exact h
    · exact ⟨h.machine, h.actors, h.mailbox⟩
    · exact h.teardown
    · dsimp only
      split <;> exact (h.noteEffects _).teardown
  | post number event =>
    have hnone : s.post number event = s := by rw [post, h.actors]; rfl
    rw [Session.upon, hnone]
    exact h
  | _ => exact ⟨h.machine, h.actors, h.mailbox⟩

variable [BEq C]

/-- An event that is given to the machine makes no timer due, and puts nothing in the queue. -/
theorem handle (hc : m.chart.Paced) (h : Alone m s) (snapshot : Snapshot C) (event : Event) :
    Eases m s (s.handle snapshot event).session := by
  have heffects : Eases m s ((s.note (.handled event)).noteEffects
      (s.machine.step snapshot event .live).effects) := by
    rw [noteEffects_eq]
    exact ⟨⟨h.machine, h.actors, h.mailbox⟩, .refl _, Nat.le_refl _⟩
  unfold Session.handle
  dsimp only
  split
  · exact heffects
  · rename_i step hstep
    obtain ⟨moves, ht⟩ := Machine.step_moving hstep
    exact heffects.trans (heffects.alone.apply (ht.paced (h.machine ▸ hc)))

/-- A turn takes an event from the queue, or is the last. -/
theorem turn (hc : m.chart.Paced) (h : Alone m s) :
    Eases m s s.turn.session ∧ ∀ t, s.turn = .again t → t.queue.length < s.queue.length := by
  have hcollect := collect_of_nil h.mailbox
  -- Without its first event the session is still one without actors.
  have hrest {item : Queued} {rest : List Queued} (hq : s.queue = item :: rest) :
      Eases m s { s with queue := rest } ∧ rest.length < s.queue.length :=
    ⟨⟨⟨h.machine, h.actors, h.mailbox⟩, .refl _, hq ▸ Nat.le_succ _⟩, hq ▸ Nat.lt_succ_self _⟩
  have ht := s.took
  generalize s.turn = turn at ht ⊢
  cases ht with
  | idle _ =>
    rw [hcollect]
    exact ⟨⟨h, .refl _, Nat.le_refl _⟩, nofun⟩
  | @dropped item rest snapshot _ hq _ _ =>
    rw [hcollect] at hq ⊢
    obtain ⟨heases, hless⟩ := hrest hq
    refine ⟨⟨⟨h.machine, h.actors, h.mailbox⟩, .refl _, heases.queue⟩, fun t ht => ?_⟩
    cases ht
    exact hless
  | @handled item rest snapshot _ hq _ _ =>
    rw [hcollect] at hq ⊢
    obtain ⟨heases, hless⟩ := hrest hq
    have hhandled := heases.alone.handle hc snapshot item.event
    refine ⟨heases.trans hhandled, fun t ht => ?_⟩
    rw [ht] at hhandled
    exact Nat.lt_of_le_of_lt hhandled.queue hless

/-- A stride leaves a session without actors. -/
theorem stride (hc : m.chart.Paced) (h : Alone m s) (hst : Stride s t) : Alone m t := by
  cases hst with
  | unstarted _ _ => exact h.noteEffects _
  | @started step _ he =>
    have heffects := h.noteEffects (s.machine.startStep .live).effects
    have hrunning : Alone m
        { s.noteEffects (s.machine.startStep .live).effects with status := .running } :=
      ⟨heffects.machine, heffects.actors, heffects.mailbox⟩
    obtain ⟨moves, ht⟩ := Machine.startStep_moving he
    exact (hrunning.apply (ht.paced (h.machine ▸ hc))).alone
  | turn => exact (h.turn hc).1.alone
  | fired _ _ => exact ⟨h.machine, h.actors, h.mailbox⟩
  | waited _ => exact ⟨h.machine, h.actors, h.mailbox⟩

/-! ## Calls that come to an end -/

/-- Working off the queue comes to an end after as many turns as there are events, and one
more that finds none. -/
theorem drain (hc : m.chart.Paced) : ∀ {fuel : Nat} {s : Session C E A}, Alone m s →
    s.queue.length < fuel → ∃ r, s.drain fuel = some r ∧ Eases m s r.session := by
  intro fuel
  induction fuel with
  | zero => intro s _ hless; exact absurd hless (Nat.not_lt_zero _)
  | succ fuel ih =>
    intro s h hless
    obtain ⟨heases, hagain⟩ := h.turn hc
    rw [Session.drain]
    cases ht : s.turn with
    | idle t => rw [ht] at heases; exact ⟨_, rfl, heases⟩
    | failed failure t => rw [ht] at heases; exact ⟨_, rfl, heases⟩
    | again t =>
      rw [ht] at heases
      have hnext : t.queue.length < fuel :=
        Nat.lt_of_lt_of_le (hagain t ht) (Nat.le_of_lt_succ hless)
      obtain ⟨r, hr, hrest⟩ := ih heases.alone hnext
      exact ⟨r, hr, heases.trans hrest⟩

end Alone

/-- Nearer to the end of a call that lets time pass until then. -/
def Nearer (limit : Nat) (t s : Session C E A) : Prop :=
  Prod.Lex (· < ·) (· < ·) (t.timers.ahead limit) (s.timers.ahead limit)

theorem nearer_wellFounded (limit : Nat) : WellFounded (Nearer (C := C) (E := E) (A := A) limit) :=
  InvImage.wf (fun s : Session C E A => s.timers.ahead limit)
    (WellFounded.prod_lex Nat.lt_wfRel.wf Nat.lt_wfRel.wf)

variable [BEq C]

theorem fire_succ {limit fuel : Nat} {timer : Timer} {timers : Timers} {reply : Reply C E A Unit}
    (hs : s.status = .running) (ht : s.timers.take? limit = some (timer, timers))
    (hd : (s.fired timer timers).drain fuel = some reply) :
    s.fire limit (fuel + 1) = match reply.answer with
      | .error e => some ⟨.error e, reply.session⟩
      | .ok () => reply.session.fire limit fuel := by
  rw [fire, if_neg (Decidable.not_not.mpr hs), ht]
  change ((s.fired timer timers).drain fuel).bind _ = _
  rw [hd]
  rfl

/-- More fuel never changes the reply of a call that lets time pass. -/
theorem advance_mono {fuel more ms : Nat} {r : Reply C E A Unit} (h : s.advance fuel ms = some r)
    (hle : fuel ≤ more) : s.advance more ms = some r := by
  unfold advance at h ⊢
  split
  · rename_i hs
    rwa [if_pos hs] at h
  · rename_i hs
    rw [if_neg hs] at h
    simp only [Option.bind_eq_bind, Option.bind_eq_some_iff] at h ⊢
    obtain ⟨reply, hd, h⟩ := h
    refine ⟨reply, drain_mono hd hle, ?_⟩
    cases ha : reply.answer with
    | error e => simpa only [ha] using h
    | ok _ =>
      simp only [ha, Option.bind_eq_some_iff] at h ⊢
      obtain ⟨last, hf, h⟩ := h
      exact ⟨last, fire_mono hf hle, h⟩

/-- Firing comes to an end, though what fires may schedule timers that are due before it. -/
theorem Alone.fire (hc : m.chart.Paced) (limit : Nat) (h : Alone m s) :
    ∃ fuel r, s.fire limit fuel = some r := by
  induction s using (nearer_wellFounded limit).induction with
  | _ s ih =>
    by_cases hs : s.status = .running
    · cases ht : s.timers.take? limit with
      | none => exact ⟨1, s.done, by rw [Session.fire, if_neg (Decidable.not_not.mpr hs), ht]⟩
      | some due =>
        obtain ⟨timer, timers⟩ := due
        have hfired : Alone m (s.fired timer timers) := ⟨h.machine, h.actors, h.mailbox⟩
        obtain ⟨reply, hdrain, heases⟩ := hfired.drain hc (Nat.lt_succ_self _)
        have hnearer : Nearer limit reply.session s := heases.timers.nearer (Timers.take?_nearer ht)
        cases ha : reply.answer with
        | error e => exact ⟨_, ⟨.error e, reply.session⟩, by rw [fire_succ hs ht hdrain, ha]⟩
        | ok _ =>
          obtain ⟨fuel, r, hr⟩ := ih reply.session hnearer heases.alone
          refine ⟨max ((s.fired timer timers).queue.length + 1) fuel + 1, r, ?_⟩
          rw [fire_succ hs ht (drain_mono hdrain (Nat.le_max_left _ _)), ha]
          exact fire_mono hr (Nat.le_max_right _ _)
    · exact ⟨1, s.done, by rw [Session.fire, if_pos hs]⟩

/-- Letting time pass comes to an end. -/
theorem Alone.advance (hc : m.chart.Paced) (h : Alone m s) (ms : Nat) :
    ∃ fuel r, s.advance fuel ms = some r := by
  by_cases hs : s.status = .running
  · obtain ⟨reply, hdrain, heases⟩ := h.drain hc (Nat.lt_succ_self _)
    obtain ⟨fuel, last, hfire⟩ := heases.alone.fire hc (reply.session.timers.now + ms)
    refine ⟨max (s.queue.length + 1) fuel, ?_⟩
    rw [Session.advance, if_neg (Decidable.not_not.mpr hs),
      drain_mono hdrain (Nat.le_max_left _ _)]
    simp only [Option.bind_eq_bind, Option.bind_some]
    cases reply.answer with
    | error e => exact ⟨_, rfl⟩
    | ok _ =>
      simp only [fire_mono hfire (Nat.le_max_right _ _), Option.bind_some]
      cases last.answer with
      | error e => exact ⟨_, rfl⟩
      | ok _ => exact ⟨_, rfl⟩
  · exact ⟨0, s.done, by rw [Session.advance, if_pos hs]⟩

/-- Letting time pass always comes to an end with a machine that was built from a definition
without invocations in which every delay is at least a millisecond: after any calls, whichever of
them failed, there is a number of turns and firings after which the call comes to its reply, and
more of them are not taken. If it succeeds and the session still runs, all the time has passed, and
what is still pending is due later. -/
theorem Reachable.advance_returns {registry : Registry C E A} {context : C} {maxMicrosteps : Nat}
    {d : Definition} (hb : Machine.build registry context maxMicrosteps d = .ok m) (hd : d.Paced)
    (h : Reachable m s) (ms : Nat) : ∃ fuel r,
      (∀ more, fuel ≤ more → s.advance more ms = some r) ∧
      (r.answer = .ok () → r.session.status = .running →
        r.session.timers.now = s.timers.now + ms ∧
          ∀ x ∈ r.session.timers.pending, r.session.timers.now < x.due) := by
  have hc : m.chart.Paced := by
    obtain ⟨-, hchart⟩ := Chart.build_ok.mp (Machine.chart_of_build hb)
    exact hchart ▸ Layout.paced_chart hd
  have halone : Alone m s := h.of_stride (fun _ _ => ⟨rfl, rfl, rfl⟩)
    (fun _ call ih => ih.upon call) fun _ _ ih hst => ih.stride hc hst
  obtain ⟨fuel, r, hr⟩ := halone.advance hc ms
  exact ⟨fuel, r, fun _ hle => advance_mono hr hle, advance_now hr⟩

/-- A lighthouse whose lamp goes on and off, and whose horn sounds again and again. -/
def lighthouse : Definition := {
  key := "lighthouse"
  kind := some .parallel
  states := [
    { key := "lamp"
      initial := some "dark"
      states := [
        { key := "dark", after := [⟨3, [{ target := ["lit"] }]⟩] },
        { key := "lit", after := [⟨2, [{ target := ["dark"] }]⟩] }] },
    { key := "horn"
      initial := some "ready"
      states := [{ key := "ready", after := [⟨5, [{ target := ["ready"] }]⟩] }] }] }

def lighthouseMachine : Machine Unit Unit Unit := Machine.buildD {} () 10 lighthouse

/-- Only two timers are pending at a time, but six fire in eleven milliseconds, twice two at one
time. -/
theorem Reachable.advance_returns_lighthouse : ∃ s reply, Reachable lighthouseMachine s ∧
    s.timers.pending.length = 2 ∧ s.advance 9 11 = some reply ∧
    reply.session.firings.map Timer.due = [3, 5, 5, 8, 10, 10] ∧ lighthouse.Paced ∧
    ∃ fuel r, (∀ more, fuel ≤ more → s.advance more 11 = some r) ∧
      (r.answer = .ok () → r.session.status = .running →
        r.session.timers.now = s.timers.now + 11 ∧
          ∀ x ∈ r.session.timers.pending, r.session.timers.now < x.due) := by
  have hbuild : Machine.build {} () 10 lighthouse = .ok lighthouseMachine :=
    Machine.build_eq_buildD (by decide +kernel)
  have hpaced : lighthouse.Paced := by decide +kernel
  have hrun : ((ofMachine lighthouseMachine "lighthouse" none).after 9 .start).any (fun s =>
      s.timers.pending.length = 2 ∧ (s.advance 9 11).any (fun reply =>
        reply.session.firings.map Timer.due = [3, 5, 5, 8, 10, 10])) = true := by decide +kernel
  obtain ⟨s, hs, hall⟩ := (Option.any_eq_true _ _).mp hrun
  obtain ⟨htimers, hadvance⟩ := of_decide_eq_true hall
  obtain ⟨reply, hreply, hfirings⟩ := (Option.any_eq_true _ _).mp hadvance
  have hreachable : Reachable lighthouseMachine s := .call (.initial "lighthouse" none) hs
  exact ⟨s, reply, hreachable, htimers, hreply, of_decide_eq_true hfirings, hpaced,
    Reachable.advance_returns hbuild hpaced hreachable 11⟩

end Session

end Statechart
