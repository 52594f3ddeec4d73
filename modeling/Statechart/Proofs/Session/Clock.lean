import Statechart.Proofs.Session.Delivery
import Statechart.Proofs.Session.Points
import Statechart.Proofs.Timers

/-!
# Timers fire in order and on time

The clock of a session moves only when a timer fires or time passes, and then never beyond a
timer that is pending. A timer fires where nothing waits, so its event is the next one that is
given to the machine, at the time the timer was due, and while its owner is still active. All
this holds for every machine, whatever its chart.

* `OnTime.stride`: what every stride keeps.
* `advance_now`: a call that lets time pass.
* `Run.punctual`: at every point of a call after any calls.
-/
namespace Statechart.Session

open Observation

variable {C E A : Type} {s t : Session C E A}

/-- The timers that have fired, the first one first. -/
def firings (s : Session C E A) : List Timer := s.seen.filterMap fired?

@[simp] theorem firings_note (s : Session C E A) (o : Observation C E) :
    (s.note o).firings = s.firings ++ o.fired?.toList := by
  rw [firings, seen_note, List.filterMap_append]
  cases ho : o.fired? <;> simp [firings, ho]

theorem Aside.firings {l : List (Observation C E)} (h : Aside s l t) : t.firings = s.firings := by
  unfold Session.firings
  rw [h.seen_eq, List.filterMap_append, fired_aside h.aside, List.append_nil]

theorem Calm.firings (h : Calm s t) : t.firings = s.firings := by
  obtain ⟨l, hl, hcalm⟩ := h.seen
  have hnone : l.filterMap fired? = [] := List.filterMap_eq_nil_iff.mpr fun o ho => by
    have := hcalm o ho; cases o <;> first | rfl | simp [isCalm] at this
  unfold Session.firings
  rw [hl, List.filterMap_append, hnone, List.append_nil]

/-- `t` comes from `s` without time passing or a timer being fired. -/
structure Still (s t : Session C E A) : Prop where
  now : t.timers.now = s.timers.now
  firings : t.firings = s.firings

theorem Still.trans {u : Session C E A} (h : Still s t) (h' : Still t u) : Still s u :=
  ⟨h'.now.trans h.now, h'.firings.trans h.firings⟩

theorem Calm.still (h : Calm s t) : Still s t := ⟨by rw [h.timers], h.firings⟩

/-! ## Timers after a macrostep -/

theorem execute_timers (context : C) (s : Session C E A) (command : Command) :
    (s.execute context command).timers = s.timers.after command := by
  cases command with
  | schedule owner event delayMs => rfl
  | cancelTimers owner => rfl
  | invoke owner id src =>
    dsimp only [execute]
    split
    · rfl
    · obtain ⟨actor, hf⟩ := startActor_frame s context id ‹_›
      exact hf.timers
  | stopActor id =>
    obtain ⟨-, he⟩ | ⟨a, -, hf⟩ := stopActor_frame s id
    · rw [execute, he]; rfl
    · exact hf.timers
  | sendTo actor event => exact (deliver_frame s actor event).timers

theorem foldl_execute_timers (context : C) : ∀ (commands : List Command) (s : Session C E A),
    (commands.foldl (execute context) s).timers = commands.foldl Timers.after s.timers
  | [], _ => rfl
  | command :: commands, s => by
    rw [List.foldl_cons, List.foldl_cons, foldl_execute_timers context commands, execute_timers]

theorem apply_timers (s : Session C E A) (step : Macrostep C) :
    (s.apply step).timers = if step.snapshot.done
      then (step.commands.foldl Timers.after s.timers).clear
      else step.commands.foldl Timers.after s.timers := by
  obtain ⟨t, ht, he⟩ := apply_eq s step
  rw [he, ← foldl_execute_timers step.snapshot.context, ← ht.timers]
  split
  · rw [teardown_eq]
  · rfl

theorem apply_still (s : Session C E A) (step : Macrostep C) : Still s (s.apply step) := by
  obtain ⟨l, hl⟩ := apply_aside s step
  refine ⟨?_, hl.firings⟩
  rw [apply_timers]
  split <;> simp [Timers.clear]

section Still

variable [BEq C]

theorem handle_still (s : Session C E A) (snapshot : Snapshot C) (event : Event) :
    Still s (s.handle snapshot event).session := by
  have ht := (Calm.note s (o := .handled event) rfl).trans
    (.noteEffects _ (s.machine.step snapshot event .live).effects)
  unfold Session.handle
  dsimp only
  split
  · exact ht.still
  · exact ht.still.trans (apply_still _ _)

theorem turn_still (s : Session C E A) : Still s s.turn.session := by
  have hcollect := (Calm.collect s).still
  have hrest (rest : List Queued) : Still s { s.collect with queue := rest } :=
    ⟨hcollect.now, hcollect.firings⟩
  have ht := s.took
  generalize s.turn = turn at ht ⊢
  cases ht with
  | idle _ => exact hcollect
  | @dropped item rest snapshot _ _ _ _ =>
    exact (hrest rest).trans (Calm.note _ (o := .dropped item) rfl).still
  | @handled item rest snapshot _ _ _ _ =>
    exact (hrest rest).trans (handle_still _ snapshot item.event)

end Still

/-! ## Sessions on time -/

/-- The timers of a session are in order. While the session runs each belongs to an active state,
and otherwise there are none. -/
structure OnTime (s : Session C E A) : Prop where
  clocked : s.timers.Clocked s.firings
  rest : s.status ≠ .running → s.timers.pending = []
  running : s.status = .running → ∃ snapshot, s.snapshot = some snapshot ∧
    s.timers.OwnedBy s.machine.chart snapshot.configuration

theorem onTime_ofMachine (m : Machine C E A) (name : String) (journalLimit : Option Nat) :
    OnTime (ofMachine m name journalLimit) where
  clocked := ⟨nofun, .nil, nofun, nofun, nofun, .nil⟩
  rest _ := rfl
  running hs := nomatch hs

namespace OnTime

theorem calm (h : OnTime s) (ht : Calm s t) : OnTime t where
  clocked := by rw [ht.timers, ht.firings]; exact h.clocked
  rest hs := by rw [ht.timers]; exact h.rest (ht.status ▸ hs)
  running hs := by
    obtain ⟨snapshot, hsnapshot, howned⟩ := h.running (ht.status ▸ hs)
    exact ⟨snapshot, ht.snapshot.trans hsnapshot, by rw [ht.timers, ht.machine]; exact howned⟩

theorem of_stopped (hs : s.status = .stopped) (h : s.timers.Clocked s.firings)
    (hnone : s.timers.pending = []) : OnTime s where
  clocked := h
  rest _ := hnone
  running hr := by rw [hs] at hr; cases hr

theorem apply {step : Macrostep C} (hs : s.status = .running)
    (hclocked : s.timers.Clocked s.firings)
    (howned : (step.commands.foldl Timers.after s.timers).OwnedBy s.machine.chart
      step.snapshot.configuration) : OnTime (s.apply step) := by
  obtain ⟨t, ht, he⟩ := apply_eq s step
  have hfirings := (apply_still s step).firings
  have htimers : t.timers = step.commands.foldl Timers.after s.timers :=
    ht.timers.trans (foldl_execute_timers _ _ _)
  have hfold := hclocked.foldl_after step.commands
  obtain ⟨hmachine, hstatus⟩ := foldl_execute_machine step.snapshot.context step.commands s
  by_cases hdone : step.snapshot.done = true
  · rw [if_pos hdone] at he
    rw [he] at hfirings ⊢
    refine .of_stopped rfl ?_ (by rw [teardown_eq]; rfl)
    rw [hfirings, teardown_eq]
    exact htimers ▸ hfold.clear
  · rw [if_neg hdone] at he
    rw [he] at hfirings ⊢
    refine ⟨by rw [hfirings]; exact htimers ▸ hfold,
      fun hn => absurd (ht.status.trans (hstatus.trans hs)) hn, fun _ => ⟨_, rfl, ?_⟩⟩
    dsimp only
    rw [htimers, ht.machine, hmachine]
    exact howned

/-- Whatever the session was before, no timers are left when it is stopped. -/
theorem stop_timers (h : OnTime s) : s.stop.session.timers = s.timers.clear := by
  unfold Session.stop
  split
  · rename_i hs
    rw [done, Timers.clear, ← h.rest (by rw [hs]; decide)]
  · rename_i hs
    rw [done, Timers.clear, ← h.rest (by rw [hs]; decide)]
  · rw [done, teardown_eq]
  · rename_i snapshot _ _
    have heffects := (noteEffects_frame s (s.machine.exitStep snapshot .live).effects).timers
    dsimp only
    split <;> simp only [done, teardown_eq, heffects]

theorem stop (h : OnTime s) : OnTime s.stop.session := by
  obtain ⟨l, haside⟩ := stop_aside s
  refine .of_stopped (stop_status s) ?_ (by rw [h.stop_timers]; rfl)
  rw [h.stop_timers, haside.firings]
  exact h.clocked.clear

theorem upon (h : OnTime s) {call : Call} (kept : call ≠ .takeTrace) :
    OnTime (s.upon call) ∧ (s.upon call).timers.now = s.timers.now := by
  cases call with
  | send event =>
    dsimp only [Session.upon]
    split
    · exact ⟨h, rfl⟩
    · exact ⟨h.calm ((Calm.note s rfl).trans (.enqueue _ _)), rfl⟩
  | stop => exact ⟨h.stop, by rw [Session.upon, h.stop_timers, Timers.clear]⟩
  | post number event =>
    have ht := Calm.post s number event
    exact ⟨h.calm ht, by rw [Session.upon, ht.timers]⟩
  | takeTrace => exact absurd rfl kept
  | _ => exact ⟨⟨h.clocked, h.rest, h.running⟩, rfl⟩

variable [BEq C]

theorem handle (h : OnTime s) (hs : s.status = .running) {snapshot : Snapshot C}
    (hsnapshot : s.snapshot = some snapshot) (event : Event) :
    OnTime (s.handle snapshot event).session := by
  have ht := (Calm.note s (o := .handled event) rfl).trans
    (.noteEffects _ (s.machine.step snapshot event .live).effects)
  have h' := h.calm ht
  unfold Session.handle
  dsimp only
  split
  · exact h'
  · rename_i step hstep
    obtain ⟨current, hcurrent, howned⟩ := h'.running (ht.status.trans hs)
    rw [ht.snapshot, hsnapshot] at hcurrent
    cases hcurrent
    rw [ht.machine] at howned
    refine .apply (ht.status.trans hs) h'.clocked ?_
    rw [ht.machine]
    exact Machine.step_owned hstep howned

theorem turn (h : OnTime s) : OnTime s.turn.session := by
  have h := h.calm (.collect s)
  have hrest (rest : List Queued) : OnTime { s.collect with queue := rest } :=
    ⟨h.clocked, h.rest, h.running⟩
  have ht := s.took
  generalize s.turn = turn at ht ⊢
  cases ht with
  | idle _ => exact h
  | @dropped item rest snapshot _ _ _ _ =>
    exact (hrest rest).calm (Calm.note _ (o := .dropped item) rfl)
  | @handled item rest snapshot hs _ _ hsnapshot =>
    exact (hrest rest).handle hs hsnapshot item.event

/-- Every stride keeps the timers in order, and the clock does not go back. -/
theorem stride (h : OnTime s) (hst : Stride s t) : OnTime t ∧ s.timers.now ≤ t.timers.now := by
  cases hst with
  | unstarted hs he =>
    have ht := Calm.noteEffects s (s.machine.startStep .live).effects
    exact ⟨h.calm ht, ht.timers ▸ Nat.le_refl _⟩
  | @started step hs he =>
    have ht := Calm.noteEffects s (s.machine.startStep .live).effects
    refine ⟨.apply rfl (h.calm ht).clocked ?_, ?_⟩
    · dsimp only
      rw [ht.timers, ht.machine]
      exact Machine.startStep_owned he (h.rest (by rw [hs]; decide))
    · rw [(apply_still _ step).now]
      exact Nat.le_of_eq ht.still.now.symm
  | turn => exact ⟨h.turn, Nat.le_of_eq (turn_still s).now.symm⟩
  | @fired limit timer timers hs ht =>
    have hclocked := (h.clocked.take ht).1
    have hsub : ∀ x ∈ timers.pending, x ∈ s.timers.pending := fun x hx =>
      (h.clocked.before_of_take ht x hx).1
    have hnow : s.timers.now ≤ timers.now := by
      obtain ⟨-, -, -, rfl⟩ := Timers.take?_spec ht
      exact Nat.le_max_left _ _
    obtain ⟨snapshot, hsnapshot, howned⟩ := h.running hs
    have hleft := howned.subset hsub
    have hnoted : OnTime (Session.note { s with timers } (.fired timer)) :=
      ⟨by rw [firings_note]; exact hclocked, fun hn => absurd hs hn,
        fun _ => ⟨snapshot, hsnapshot, hleft⟩⟩
    exact ⟨hnoted.calm (.enqueue _ _), hnow⟩
  | @waited limit hn =>
    have hnone : s.timers.take? limit = none := by
      by_cases hs : s.status = .running
      · exact hn hs
      · rw [Timers.take?_eq_none, h.rest hs]; exact nofun
    exact ⟨⟨h.clocked.advanceTo hnone, h.rest, h.running⟩, Nat.le_max_left _ _⟩

end OnTime

variable [BEq C]

theorem OnTime.strides (h : OnTime s) (hst : Strides s t) :
    OnTime t ∧ s.timers.now ≤ t.timers.now :=
  hst.keep (P := fun t => OnTime t ∧ s.timers.now ≤ t.timers.now)
    (fun _ _ ih hst => ⟨(ih.1.stride hst).1, Nat.le_trans ih.2 (ih.1.stride hst).2⟩)
    ⟨h, Nat.le_refl _⟩

/-! ## Letting time pass -/

section Pass

variable {fuel ms limit : Nat} {r : Reply C E A Unit}

/-- Working off the queue takes no time. -/
theorem drain_now : ∀ {fuel : Nat} {s : Session C E A}, s.drain fuel = some r →
    r.session.timers.now = s.timers.now := by
  intro fuel
  induction fuel with
  | zero => intro s h; cases h
  | succ fuel ih =>
    intro s h
    rw [drain] at h
    have hnow := (turn_still s).now
    cases ht : s.turn with
    | idle t => rw [ht] at h hnow; cases h; exact hnow
    | failed failure t => rw [ht] at h hnow; cases h; exact hnow
    | again t => rw [ht] at h hnow; exact (ih h).trans hnow

/-- Firing takes the clock no further than it is told to. -/
theorem fire_now : ∀ {fuel : Nat} {s : Session C E A} {r : Reply C E A Unit},
    s.timers.now ≤ limit → s.fire limit fuel = some r → r.session.timers.now ≤ limit := by
  intro fuel
  induction fuel with
  | zero => intro s r _ h; cases h
  | succ fuel ih =>
    intro s r hle h
    rw [fire] at h
    split at h
    · cases h; exact hle
    · split at h
      · cases h; exact hle
      · rename_i timer timers ht
        obtain ⟨-, hdue, -, rfl⟩ := Timers.take?_spec ht
        simp only [Option.bind_eq_bind, Option.bind_eq_some_iff] at h
        obtain ⟨reply, hd, h⟩ := h
        have hnow : reply.session.timers.now ≤ limit := drain_now hd ▸ Nat.max_le.mpr ⟨hle, hdue⟩
        split at h
        · cases h; exact hnow
        · exact ih hnow h

/-- When time has passed and the session still runs, the clock shows it, and all that was due
by then has fired. -/
theorem advance_now (h : s.advance fuel ms = some r) (hok : r.answer = .ok ())
    (hr : r.session.status = .running) :
    r.session.timers.now = s.timers.now + ms ∧
      ∀ x ∈ r.session.timers.pending, r.session.timers.now < x.due := by
  unfold advance at h
  split at h
  · cases h; exact absurd hr ‹_›
  · simp only [Option.bind_eq_bind, Option.bind_eq_some_iff] at h
    obtain ⟨reply, hd, h⟩ := h
    have hnow := drain_now hd
    cases ha : reply.answer with
    | error e => rw [ha] at h; cases h; cases hok
    | ok _ =>
      simp only [ha, Option.bind_eq_some_iff] at h
      obtain ⟨last, hf, h⟩ := h
      cases hb : last.answer with
      | error e => rw [hb] at h; cases h; cases hok
      | ok _ =>
        rw [hb] at h; cases h
        have hle := fire_now (Nat.le_add_right _ ms) hf
        have hdue := Timers.take?_eq_none.mp ((fire_strides hf).2 hb hr)
        rw [hnow] at hle hdue
        have hlast : max last.session.timers.now (reply.session.timers.now + ms) =
            s.timers.now + ms := by rw [hnow]; exact Nat.max_eq_right hle
        exact ⟨hlast, fun x hx => Nat.lt_of_le_of_lt (Nat.le_of_eq hlast) (hdue x hx)⟩

end Pass

/-! ## Firing -/

/-- A timer has just fired: it is the last that did, it is due now, its owner is active, and its
event is the next that the machine is given. -/
def JustFired (timer : Timer) (s t : Session C E A) : Prop :=
  t.firings = s.firings ++ [timer] ∧ t.timers.now = timer.due ∧
    ∃ snapshot, t.snapshot = some snapshot ∧ timer.owner ∈ snapshot.configuration ∧
      t.turn = { t with queue := [] }.handle snapshot timer.event

theorem OnTime.justFired (h : OnTime s) (hset : Settled s) (hs : s.status = .running) {limit : Nat}
    {timer : Timer} {timers : Timers} (ht : s.timers.take? limit = some (timer, timers)) :
    JustFired timer s (s.fired timer timers) := by
  obtain ⟨snapshot, hsnapshot, howned⟩ := h.running hs
  refine ⟨?_, (h.clocked.take ht).2, snapshot, hsnapshot,
    (howned timer (Timers.take?_spec ht).1).1, turn_external hset.mailbox hs ?_ hsnapshot⟩
  · rw [fired, (Calm.enqueue _ _).firings, firings_note]; rfl
  · simp [fired, enqueue, note, hset.queue]

/-- A step of a call fires no timer, or one, whose event comes to its turn with the next step. -/
theorem OnTime.next {p q : Point C E A} (h : OnTime p.session) (hp : Ready p) (hn : p.Next q) :
    q.session.firings = p.session.firings ∨
      ∃ timer, JustFired timer p.session q.session ∧ ∃ rest, q.tasks = .drain :: rest := by
  cases hn with
  | @idle s t rest ht => have := (turn_still s).firings; rw [ht] at this; exact .inl this
  | @again s t rest ht => have := (turn_still s).firings; rw [ht] at this; exact .inl this
  | @failed s t rest failure ht =>
    have := (turn_still s).firings; rw [ht] at this; exact .inl this
  | pass => exact .inl rfl
  | fired hs ht => exact .inr ⟨_, h.justFired (hp _ _ rfl (by simp) hs) hs ht, _, rfl⟩
  | waited _ => exact .inl rfl

/-! ## Every point of a call -/

/-- What timers do at a point of a call. -/
structure Prompt (p : Point C E A) : Prop where
  /-- Timers have fired in their order. -/
  ordered : p.session.firings.Pairwise fun x y => x.before y = true
  /-- No timer that is pending is late. -/
  ahead : ∀ x ∈ p.session.timers.pending, p.session.timers.now ≤ x.due
  /-- The clock does not go back. -/
  forward : ∀ q, p.Reaches q → p.session.timers.now ≤ q.session.timers.now
  /-- The next step fires no timer, or one, whose event comes to its turn with the step after. -/
  fires : ∀ q, p.Next q → q.session.firings = p.session.firings ∨
    ∃ timer, JustFired timer p.session q.session ∧ ∃ rest, q.tasks = .drain :: rest

/-- What timers do in the next call of a session. -/
structure Punctual (s : Session C E A) : Prop where
  /-- All is well at every point of the call, and the clock does not go back. -/
  prompt : ∀ call p, call ≠ .takeTrace → (s.begun call).Reaches p →
    Prompt p ∧ s.timers.now ≤ p.session.timers.now
  /-- A call that comes to a reply has gone through such points to its end. -/
  replies : ∀ fuel call t, s.after fuel call = some t → (s.begun call).Reaches ⟨[], t⟩
  /-- When time has passed and the session still runs, the clock shows it, and all that was due
  by then has fired. -/
  passed : ∀ fuel ms r, s.advance fuel ms = some r → r.answer = .ok () →
    r.session.status = .running → r.session.timers.now = s.timers.now + ms ∧
      ∀ x ∈ r.session.timers.pending, r.session.timers.now < x.due

theorem Run.onTime {m : Machine C E A} {calls : List Call} (h : Run m calls s)
    (kept : .takeTrace ∉ calls) : OnTime s :=
  (During.rest h).of_stride_of_kept (P := fun _ s => OnTime s) (onTime_ofMachine m)
    (fun _ _ _ hcall ih => (ih.upon hcall).1) (fun _ _ _ ih hst => (ih.stride hst).1) kept

/-- Timers fire in order and on time, and none is missed. This holds after any calls, at every
point of the next one, whether it comes to a reply or not. -/
theorem Run.punctual {m : Machine C E A} {calls : List Call} (h : Run m calls s)
    (kept : .takeTrace ∉ calls) : Punctual s where
  prompt call p hcall hp := by
    obtain ⟨hupon, hnow⟩ := (h.onTime kept).upon hcall
    obtain ⟨hontime, hle⟩ := hupon.strides ((begun_strides s call).trans hp.strides)
    exact ⟨⟨hontime.clocked.ordered, hontime.clocked.ahead,
      fun q hq => (hontime.strides hq.strides).2, fun q hq => hontime.next (h.ready hp) hq⟩,
      hnow ▸ hle⟩
  replies _ _ _ hafter := after_reaches hafter
  passed _ _ _ hr hok hrun := advance_now hr hok hrun

/-- A kettle that is on for some time at most, heats up in steps, and whistles when it boils. -/
def kettle : Definition := {
  key := "kettle"
  initial := some "off"
  states := [
    { key := "off", on := [⟨"HEAT", [{ target := ["on"] }]⟩] },
    { key := "on"
      initial := some "low"
      after := [⟨20, [{ target := ["off"] }]⟩]
      states := [
        { key := "low", after := [⟨5, [{ target := ["high"] }]⟩] },
        { key := "high", after := [⟨0, [{ target := ["boiling"] }]⟩] },
        { key := "boiling", after := [⟨7, [{ actions := [.named "whistle"] }]⟩,
          ⟨15, [{ target := ["low"] }]⟩] }] }] }

/-- The whistle is broken. -/
def whistles : Registry Unit Unit Unit where
  actions := [("whistle", .effect fun _ _ => .error "no sound")]

def kettleMachine : Machine Unit Unit Unit := Machine.buildD whistles () 10 kettle

/-- The broken whistle ends a call while time passes; the kettle is turned off at the time when
it would go back to low heat. -/
def heated : List Call :=
  [.start, .send { type := "HEAT" }, .advance 30, .advance 3, .advance 5]

theorem punctual_kettle : ∃ s, Run kettleMachine heated s ∧ .takeTrace ∉ heated ∧
    s.firings.map (fun x => (x.due, x.number)) = [(5, 1), (5, 2), (12, 3), (20, 0)] ∧
    s.status = .running ∧ s.timers.now = 20 ∧ s.timers.pending = [] ∧ Punctual s := by
  have hrun : ((ofMachine kettleMachine "kettle" none).afterAll 9 heated).any (fun s =>
      s.firings.map (fun x => (x.due, x.number)) = [(5, 1), (5, 2), (12, 3), (20, 0)] ∧
        s.status = .running ∧ s.timers.now = 20 ∧ s.timers.pending = []) = true := by
    decide +kernel
  obtain ⟨s, hs, hall⟩ := (Option.any_eq_true _ _).mp hrun
  obtain ⟨hfirings, hstatus, hnow, hpending⟩ := of_decide_eq_true hall
  have hr : Run kettleMachine heated s := (Run.initial "kettle" none).append hs
  have hkept : Call.takeTrace ∉ heated := by simp [heated]
  exact ⟨s, hr, hkept, hfirings, hstatus, hnow, hpending, Run.punctual hr hkept⟩

end Statechart.Session
