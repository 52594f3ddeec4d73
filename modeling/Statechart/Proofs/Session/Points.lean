import Statechart.Proofs.Session.Settled

/-!
# Calls step by step

A call that comes to no reply says nothing of what it did, and one that comes to a reply only
where it ended. Here a call is cut into steps between two points: what it has yet to do, as a
stack of tasks, and the session (`Point.Next`). Working off the queue is one turn after
another, a failure drops all that was yet to be done, and every timer that fires has the queue
worked off before the next one can fire. So timers fire only where nothing waits (`Ready`).

* `after_reaches`: a call that comes to a reply has gone from its first point to its last.
* `Point.Next.strides`: a step makes one stride at most.
* `Run.ready`: nothing waits between two tasks.
-/
namespace Statechart.Session

variable {C E A : Type}

/-- What a call still has to do. -/
inductive Task where
  /-- Take events from the queue until there is nothing to do. -/
  | drain
  /-- Let so many milliseconds pass from now on. -/
  | pass (ms : Nat)
  /-- Fire the timers that are due by a time, and put the clock forward to it. -/
  | fire (limit : Nat)

/-- A call on its way: what it still has to do, the next thing first, and the session. -/
structure Point (C E A : Type) where
  tasks : List Task
  session : Session C E A

/-- The session after a timer was taken out as due. -/
def fired (s : Session C E A) (timer : Timer) (timers : Timers) : Session C E A :=
  ({ s with timers }.note (.fired timer)).enqueue (.external timer.event)

variable [BEq C]

/-- One step of a call. -/
inductive Point.Next : Point C E A → Point C E A → Prop
  | idle {s t : Session C E A} {rest : List Task} (h : s.turn = .idle t) :
      Next ⟨.drain :: rest, s⟩ ⟨rest, t⟩
  | again {s t : Session C E A} {rest : List Task} (h : s.turn = .again t) :
      Next ⟨.drain :: rest, s⟩ ⟨.drain :: rest, t⟩
  /-- A failure ends the call. -/
  | failed {s t : Session C E A} {rest : List Task} {failure : Failure}
      (h : s.turn = .failed failure t) : Next ⟨.drain :: rest, s⟩ ⟨[], t⟩
  | pass {s : Session C E A} {rest : List Task} {ms : Nat} :
      Next ⟨.pass ms :: rest, s⟩ ⟨.fire (s.timers.now + ms) :: rest, s⟩
  | fired {s : Session C E A} {rest : List Task} {limit : Nat} {timer : Timer} {timers : Timers}
      (hs : s.status = .running) (h : s.timers.take? limit = some (timer, timers)) :
      Next ⟨.fire limit :: rest, s⟩ ⟨.drain :: .fire limit :: rest, s.fired timer timers⟩
  | waited {s : Session C E A} {rest : List Task} {limit : Nat}
      (h : s.status = .running → s.timers.take? limit = none) :
      Next ⟨.fire limit :: rest, s⟩ ⟨rest, { s with timers := s.timers.advanceTo limit }⟩

/-- The points that a call comes to from a point. -/
abbrev Point.Reaches : Point C E A → Point C E A → Prop := Relation.ReflTransGen Next

def begun (s : Session C E A) : Call → Point C E A
  | .start =>
    if s.status = .notStarted then
      let out := s.machine.startStep .live
      match out.result with
      | .error _ => ⟨[], s.noteEffects out.effects⟩
      | .ok step => ⟨[.drain], { s.noteEffects out.effects with status := .running }.apply step⟩
    else ⟨[], s⟩
  | .send event => ⟨if s.status = .running then [.drain] else [], s.upon (.send event)⟩
  | .flush => ⟨if s.status = .running then [.drain] else [], s⟩
  | .advance ms => ⟨if s.status = .running then [.drain, .pass ms] else [], s⟩
  | call => ⟨[], s.upon call⟩

/-! ## Calls that come to a reply -/

omit [BEq C] in
/-- Where a call goes on after a part of it: at `next` if the part has succeeded, and nowhere if
it has failed. -/
def onward (r : Reply C E A Unit) (next : Point C E A) : Point C E A :=
  match r.answer with
  | .ok () => next
  | .error _ => ⟨[], r.session⟩

open Point

theorem drain_reaches (rest : List Task) : ∀ {fuel : Nat} {s : Session C E A}
    {r : Reply C E A Unit}, s.drain fuel = some r →
    Reaches ⟨.drain :: rest, s⟩ (onward r ⟨rest, r.session⟩) := by
  intro fuel
  induction fuel with
  | zero => intro s r h; cases h
  | succ fuel ih =>
    intro s r h
    rw [drain] at h
    cases ht : s.turn with
    | idle t => rw [ht] at h; cases h; exact .single (.idle ht)
    | failed failure t => rw [ht] at h; cases h; exact .single (.failed ht)
    | again t => rw [ht] at h; exact .head (.again ht) (ih h)

theorem fire_reaches {limit : Nat} (rest : List Task) : ∀ {fuel : Nat} {s : Session C E A}
    {r : Reply C E A Unit}, s.fire limit fuel = some r →
    Reaches ⟨.fire limit :: rest, s⟩ (onward r
      ⟨rest, { r.session with timers := r.session.timers.advanceTo limit }⟩) := by
  intro fuel
  induction fuel with
  | zero => intro s r h; cases h
  | succ fuel ih =>
    intro s r h
    rw [fire] at h
    split at h
    · rename_i hs
      cases h; exact .single (.waited fun hr => absurd hr hs)
    · rename_i hs
      split at h
      · rename_i hn
        cases h; exact .single (.waited fun _ => hn)
      · rename_i timer timers ht
        simp only [Option.bind_eq_bind, Option.bind_eq_some_iff] at h
        obtain ⟨reply, hd, h⟩ := h
        have hfired : Reaches ⟨.fire limit :: rest, s⟩
            (onward reply ⟨.fire limit :: rest, reply.session⟩) :=
          .head (.fired (Decidable.not_not.mp hs) ht) (drain_reaches _ hd)
        cases ha : reply.answer with
        | error e =>
          rw [ha] at h; cases h
          simpa only [onward, ha] using hfired
        | ok _ =>
          rw [ha] at h
          simp only [onward, ha] at hfired
          exact hfired.trans (ih h)

section Calls

variable {s t : Session C E A} {fuel : Nat}

theorem drained {r : Reply C E A Unit} (h : s.drain fuel = some r) :
    Reaches ⟨[.drain], s⟩ ⟨[], r.session⟩ := by
  have hreach := drain_reaches [] h
  unfold onward at hreach
  split at hreach <;> exact hreach

theorem start_reaches {r : Reply C E A (Snapshot C)} (h : s.start fuel = some r) :
    Reaches (s.begun .start) ⟨[], r.session⟩ := by
  unfold start at h
  split at h
  · rename_i hs
    cases h; simp only [begun, hs]; exact .refl
  · rename_i hs
    cases h; simp only [begun, hs, current_session]; exact .refl
  · rename_i hs
    simp only [begun, hs]
    cases he : (s.machine.startStep .live).result with
    | error failure => simp only [he] at h; cases h; exact .refl
    | ok step =>
      simp only [he, Option.bind_eq_bind, Option.bind_eq_some_iff, Option.pure_def,
        Option.some.injEq] at h
      obtain ⟨reply, hd, rfl⟩ := h
      have hreach := drained hd
      cases ha : reply.answer with
      | error e => exact hreach
      | ok _ => dsimp only; rwa [current_session]

theorem send_reaches {event : Event} {r : Reply C E A Unit} (h : s.send fuel event = some r) :
    Reaches (s.begun (.send event)) ⟨[], r.session⟩ := by
  unfold send at h
  split at h
  · rename_i hs
    cases h; simp only [begun, upon, hs]; exact .refl
  · rename_i hs
    cases h; simp only [begun, upon, hs]; exact .refl
  · rename_i hs
    simp only [begun, upon, hs]; exact drained h

theorem flush_reaches {r : Reply C E A Unit} (h : s.flush fuel = some r) :
    Reaches (s.begun .flush) ⟨[], r.session⟩ := by
  unfold flush at h
  split at h
  · rename_i hs
    simp only [begun, if_pos hs]; exact drained h
  · rename_i hs
    cases h; simp only [begun, if_neg hs]; exact .refl

theorem advance_reaches {ms : Nat} {r : Reply C E A Unit} (h : s.advance fuel ms = some r) :
    Reaches (s.begun (.advance ms)) ⟨[], r.session⟩ := by
  unfold advance at h
  split at h
  · rename_i hs
    cases h; simp only [begun, if_neg hs]; exact .refl
  · rename_i hs
    simp only [begun, if_pos (Decidable.not_not.mp hs)]
    simp only [Option.bind_eq_bind, Option.bind_eq_some_iff] at h
    obtain ⟨reply, hd, h⟩ := h
    have hfirst := drain_reaches [.pass ms] hd
    cases ha : reply.answer with
    | error e =>
      rw [ha] at h; cases h
      simpa only [onward, ha] using hfirst
    | ok _ =>
      simp only [ha, Option.bind_eq_some_iff] at h
      obtain ⟨last, hf, h⟩ := h
      simp only [onward, ha] at hfirst
      have hsecond := (hfirst.tail .pass).trans (fire_reaches [] hf)
      cases hb : last.answer with
      | error e =>
        rw [hb] at h; cases h
        simpa only [onward, hb] using hsecond
      | ok _ =>
        rw [hb] at h; cases h
        simp only [onward, hb] at hsecond
        exact hsecond

/-- A call that comes to a reply has gone from its first point to the end. -/
theorem after_reaches {call : Call} (h : s.after fuel call = some t) :
    Reaches (s.begun call) ⟨[], t⟩ := by
  cases call with
  | start =>
    obtain ⟨r, hr, rfl⟩ := Option.map_eq_some_iff.mp h
    exact start_reaches hr
  | send event =>
    obtain ⟨r, hr, rfl⟩ := Option.map_eq_some_iff.mp h
    exact send_reaches hr
  | flush =>
    obtain ⟨r, hr, rfl⟩ := Option.map_eq_some_iff.mp h
    exact flush_reaches hr
  | advance ms =>
    obtain ⟨r, hr, rfl⟩ := Option.map_eq_some_iff.mp h
    exact advance_reaches hr
  | _ => cases h; exact .refl

end Calls

/-! ## Points and strides -/

theorem Point.Next.strides {p q : Point C E A} (h : p.Next q) :
    Strides p.session q.session := by
  cases h with
  | @idle s t rest ht =>
    have hst := Stride.turn s
    rw [ht] at hst; exact .single hst
  | @again s t rest ht =>
    have hst := Stride.turn s
    rw [ht] at hst; exact .single hst
  | @failed s t rest failure ht =>
    have hst := Stride.turn s
    rw [ht] at hst; exact .single hst
  | pass => exact .refl
  | fired hs ht => exact .single (.fired hs ht)
  | waited ht => exact .single (.waited ht)

theorem begun_strides (s : Session C E A) (call : Call) :
    Strides (s.upon call) (s.begun call).session := by
  cases call with
  | start =>
    simp only [begun]
    split
    · rename_i hs
      cases he : (s.machine.startStep .live).result with
      | error failure => exact .single (.unstarted hs he)
      | ok step => exact .single (.started hs he)
    · exact .refl
  | _ => exact .refl

theorem Point.Reaches.strides {p q : Point C E A} (h : p.Reaches q) :
    Strides p.session q.session := by
  induction h with
  | refl => exact .refl
  | tail _ hn ih => exact ih.trans hn.strides

theorem Run.during {m : Machine C E A} {calls : List Call} {s : Session C E A}
    (h : Run m calls s) {call : Call} {p : Point C E A} (hp : (s.begun call).Reaches p) :
    During m (calls ++ [call]) p.session :=
  .amid h ((begun_strides s call).trans hp.strides)

/-! ## Nothing waits between two tasks -/

/-- An event from outside that is first in the queue is given to the machine, if no posts wait. -/
theorem turn_external {s : Session C E A} {event : Event} {rest : List Queued}
    {snapshot : Snapshot C} (hmailbox : s.mailbox = []) (hs : s.status = .running)
    (hq : s.queue = .external event :: rest) (hsnapshot : s.snapshot = some snapshot) :
    s.turn = { s with queue := rest }.handle snapshot event := by
  have hcollect := collect_of_nil hmailbox
  have hturn := turn_eq_handle (s := s) (by rw [hcollect]; exact hs) (by rw [hcollect]; exact hq)
    (by simp [drops, Queued.external]) (by rw [hcollect]; exact hsnapshot)
  rw [hturn, hcollect]
  rfl

/-- While the session runs, nothing waits unless the queue is to be worked off next. -/
def Ready (p : Point C E A) : Prop :=
  ∀ task rest, p.tasks = task :: rest → task ≠ .drain → p.session.status = .running →
    Settled p.session

theorem ready_begun (s : Session C E A) (call : Call) : Ready (s.begun call) := by
  intro task rest he hne
  cases call with
  | start =>
    simp only [begun] at he
    split at he
    · split at he <;> cases he
      exact absurd rfl hne
    · cases he
  | send event =>
    simp only [begun] at he
    split at he <;> cases he
    exact absurd rfl hne
  | flush =>
    simp only [begun] at he
    split at he <;> cases he
    exact absurd rfl hne
  | advance ms =>
    simp only [begun] at he
    split at he <;> cases he
    exact absurd rfl hne
  | _ => cases he

theorem Ready.next {p q : Point C E A} (hc : Current p.session) (hp : Ready p) (h : p.Next q) :
    Ready q := by
  cases h with
  | idle ht => exact fun _ _ _ _ hr => turn_settled hc ht hr
  | again ht => exact fun task rest he hne => absurd (List.cons.inj he).1.symm hne
  | failed ht => exact fun task rest he => nomatch he
  | pass => exact fun _ _ _ _ hr => hp _ _ rfl (by simp) hr
  | fired hs ht => exact fun task rest he hne => absurd (List.cons.inj he).1.symm hne
  | waited ht =>
    intro _ _ _ _ hr
    obtain ⟨hqueue, hmailbox⟩ := hp _ _ rfl (by simp) hr
    exact ⟨hqueue, hmailbox⟩

/-- Whenever a call of a run comes to its next task, nothing waits. -/
theorem Run.ready {m : Machine C E A} {calls : List Call} {s : Session C E A} (h : Run m calls s)
    {call : Call} {p : Point C E A} (hp : (s.begun call).Reaches p) : Ready p := by
  induction hp with
  | refl => exact ready_begun s call
  | tail hq hn ih => exact ih.next (h.during hq).current hn

end Statechart.Session
