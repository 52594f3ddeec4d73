import Statechart.Proofs.Session.Observed
import Statechart.Proofs.Session.Strides

/-!
# Calls that succeed leave nothing waiting

A call that works off the queue goes on until the queue and the mailbox are empty, the session
has ended, or a macrostep fails. So when such a call succeeds and the session still runs,
nothing waits any more. A session that runs always has a snapshot (`Current`), without which a
turn would come to nothing. A session that has ended stays as it is.

* `drain_settled`, `fire_settled`: the calls that repeat themselves.
* `worksOff_settled`: every call that works off the queue.
* `ended_of_strides`, `after_of_stopped`: a session that has ended, in the rest of the call and in
  later ones.
* `turns_of_strides`, `turns_of_after`: it takes no turns any more.
-/
namespace Statechart

/-- The session after a call that succeeds. -/
def Reply.ok? {C E A α : Type} (r : Reply C E A α) : Option (Session C E A) :=
  match r.answer with
  | .ok _ => some r.session
  | .error _ => none

namespace Session

open Observation

variable {C E A : Type} {s t : Session C E A} {fuel : Nat}

/-- A session that runs has a snapshot. -/
def Current (s : Session C E A) : Prop := s.status = .running → s.snapshot.isSome = true

/-- Nothing waits. -/
structure Settled (s : Session C E A) : Prop where
  queue : s.queue = []
  mailbox : s.mailbox = []

/-- What is left of a call when the session has ended in the middle of it: posts that were taken
before are moved to the queue, where they stay, and the clock may be put forward. -/
structure Ended (s t : Session C E A) : Prop where
  status : t.status = .stopped
  snapshot : t.snapshot = s.snapshot
  journal : t.journal = s.journal
  seen : ∃ items : List Queued, t.seen = s.seen ++ items.map .queued

/-- The session after a call that works off the queue and succeeds: a start of a session that
is not started, a send, a flush, or letting time pass. -/
def worksOff [BEq C] (fuel : Nat) (s : Session C E A) : Call → Option (Session C E A)
  | .start => if s.status = .notStarted then (s.start fuel).bind Reply.ok? else none
  | .send event => (s.send fuel event).bind Reply.ok?
  | .flush => (s.flush fuel).bind Reply.ok?
  | .advance ms => (s.advance fuel ms).bind Reply.ok?
  | _ => none

theorem stop_status (s : Session C E A) : s.stop.session.status = .stopped := by
  unfold stop
  split
  · assumption
  · rfl
  · rfl
  · dsimp only
    split <;> rfl

/-! ## The snapshot of a session that runs -/

theorem apply_current (s : Session C E A) (step : Macrostep C) : Current (s.apply step) := by
  unfold Session.apply
  dsimp only
  split
  · exact fun hs => nomatch hs
  · exact fun _ => rfl

namespace Current

theorem frame (h : Current s) (hf : Frame s t) : Current t := fun ht => by
  rw [hf.snapshot]; exact h (hf.status ▸ ht)

theorem upon (h : Current s) (call : Call) : Current (s.upon call) := by
  cases call with
  | send event =>
    dsimp only [Session.upon]
    split
    · exact h
    · exact (h.frame (note_frame _ _)).frame (enqueue_frame _ _)
  | stop => exact fun hs => absurd ((stop_status s).symm.trans hs) (by decide)
  | post number event => exact h.frame (post_frame s number event)
  | _ => exact h

variable [BEq C]

theorem turn (h : Current s) : Current s.turn.session := by
  have hc := h.frame (collect_frame s)
  have hrest (rest : List Queued) : Current { s.collect with queue := rest } := hc
  have ht := s.took
  generalize s.turn = turn at ht ⊢
  cases ht with
  | idle _ => exact hc
  | @dropped item rest snapshot _ _ _ _ => exact (hrest rest).frame (note_frame _ _)
  | @handled item rest snapshot _ _ _ _ =>
    unfold Session.handle
    dsimp only
    split
    · exact ((hrest rest).frame (note_frame _ _)).frame (noteEffects_frame _ _)
    · exact apply_current _ _

theorem stride (h : Current s) (hst : Stride s t) : Current t := by
  cases hst with
  | unstarted _ _ => exact h.frame (noteEffects_frame _ _)
  | started _ _ => exact apply_current _ _
  | turn => exact h.turn
  | @fired limit timer timers _ _ =>
    have ht : Current { s with timers } := h
    exact (ht.frame (note_frame _ _)).frame (enqueue_frame _ _)
  | waited _ => exact h

theorem strides (h : Current s) (hst : Strides s t) : Current t :=
  hst.keep (fun _ _ h => h.stride) h

end Current

theorem During.current [BEq C] {m : Machine C E A} {calls : List Call} (h : During m calls s) :
    Current s :=
  h.of_stride (P := fun _ s => Current s) (fun _ _ hs => nomatch hs) (fun _ _ call hc => hc.upon call)
    fun _ _ _ hc hst => hc.stride hst

/-! ## Working off the queue -/

variable [BEq C]

/-- A turn finds nothing to do only when nothing waits or the session does not run. -/
theorem turn_settled (hc : Current s) (h : s.turn = .idle t) (ht : t.status = .running) :
    Settled t := by
  obtain ⟨rfl, hidle⟩ := of_turn_idle h
  obtain ⟨snapshot, hsnapshot⟩ := Option.isSome_iff_exists.mp (hc.frame (collect_frame s) ht)
  refine ⟨(hidle ht).resolve_right fun hnone => ?_, by rw [collect_eq]⟩
  rw [hsnapshot] at hnone
  cases hnone

theorem drain_settled : ∀ {fuel : Nat} {s : Session C E A} {r : Reply C E A Unit}, Current s →
    s.drain fuel = some r → r.answer = .ok () → r.session.status = .running →
    Settled r.session := by
  intro fuel
  induction fuel with
  | zero => intro s r _ h; cases h
  | succ fuel ih =>
    intro s r hc h hok hr
    rw [drain] at h
    have hturn := hc.turn
    cases ht : s.turn with
    | idle t => rw [ht] at h; cases h; exact turn_settled hc ht hr
    | failed failure t => rw [ht] at h; cases h; cases hok
    | again t => rw [ht] at h hturn; exact ih hturn h hok hr

/-- Firing goes from one settled session to the next. -/
theorem fire_settled {limit : Nat} : ∀ {fuel : Nat} {s : Session C E A} {r : Reply C E A Unit},
    Current s → (s.status = .running → Settled s) → s.fire limit fuel = some r →
    r.answer = .ok () → r.session.status = .running → Settled r.session := by
  intro fuel
  induction fuel with
  | zero => intro s r _ _ h; cases h
  | succ fuel ih =>
    intro s r hc hset h hok hr
    rw [fire] at h
    split at h
    · cases h; exact absurd hr ‹_›
    · rename_i hs
      split at h
      · cases h; exact hset hr
      · rename_i timer timers ht
        simp only [Option.bind_eq_bind, Option.bind_eq_some_iff] at h
        obtain ⟨reply, hd, h⟩ := h
        have hfired := hc.stride (.fired (Decidable.not_not.mp hs) ht)
        cases ha : reply.answer with
        | error e => rw [ha] at h; cases h; cases hok
        | ok _ =>
          rw [ha] at h
          exact ih (hfired.strides (drain_strides hd)) (drain_settled hfired hd ha) h hok hr

theorem advance_settled {ms : Nat} {r : Reply C E A Unit} (hc : Current s)
    (h : s.advance fuel ms = some r) (hok : r.answer = .ok ()) (hr : r.session.status = .running) :
    Settled r.session := by
  unfold advance at h
  split at h
  · cases h; exact absurd hr ‹_›
  · simp only [Option.bind_eq_bind, Option.bind_eq_some_iff] at h
    obtain ⟨reply, hd, h⟩ := h
    cases ha : reply.answer with
    | error e => rw [ha] at h; cases h; cases hok
    | ok _ =>
      simp only [ha, Option.bind_eq_some_iff] at h
      obtain ⟨fired, hf, h⟩ := h
      have hset := fire_settled (hc.strides (drain_strides hd)) (drain_settled hc hd ha) hf
      cases hb : fired.answer with
      | error e => rw [hb] at h; cases h; cases hok
      | ok _ =>
        simp only [hb] at h
        cases h
        have := hset hb hr
        exact ⟨this.queue, this.mailbox⟩

omit [BEq C] in
theorem ok?_eq_some {α : Type} {r : Reply C E A α} (h : r.ok? = some t) :
    (∃ a, r.answer = .ok a) ∧ r.session = t := by
  unfold Reply.ok? at h
  split at h
  · rename_i a ha; cases h; exact ⟨⟨a, ha⟩, rfl⟩
  · cases h

theorem start_settled {r : Reply C E A (Snapshot C)} {a : Snapshot C}
    (hs : s.status = .notStarted) (h : s.start fuel = some r) (hok : r.answer = .ok a)
    (hr : r.session.status = .running) : Settled r.session := by
  unfold start at h
  rw [hs] at h
  dsimp only at h
  split at h
  · cases h; cases hok
  · rename_i step _
    simp only [Option.bind_eq_bind, Option.bind_eq_some_iff, Option.pure_def,
      Option.some.injEq] at h
    obtain ⟨reply, hd, rfl⟩ := h
    cases ha : reply.answer with
    | error e => rw [ha] at hok; cases hok
    | ok _ =>
      rw [ha] at hr
      dsimp only at hr ⊢
      rw [current_session] at hr ⊢
      exact drain_settled (apply_current _ _) hd ha hr

/-- A call that works off the queue and succeeds leaves nothing waiting, if the session
still runs. -/
theorem worksOff_settled (hc : Current s) {call : Call} (h : s.worksOff fuel call = some t)
    (ht : t.status = .running) : Settled t := by
  cases call with
  | start =>
    dsimp only [worksOff] at h
    split at h
    · rename_i hs
      obtain ⟨r, hr, hok⟩ := Option.bind_eq_some_iff.mp h
      obtain ⟨⟨a, ha⟩, rfl⟩ := ok?_eq_some hok
      exact start_settled hs hr ha ht
    · cases h
  | send event =>
    obtain ⟨r, hr, hok⟩ := Option.bind_eq_some_iff.mp h
    obtain ⟨⟨a, ha⟩, rfl⟩ := ok?_eq_some hok
    unfold send at hr
    split at hr
    · rename_i hs; cases hr; exact absurd (hs.symm.trans ht) (by decide)
    · rename_i hs; cases hr; exact absurd (hs.symm.trans ht) (by decide)
    · exact drain_settled ((hc.frame (note_frame _ _)).frame (enqueue_frame _ _)) hr ha ht
  | flush =>
    obtain ⟨r, hr, hok⟩ := Option.bind_eq_some_iff.mp h
    obtain ⟨⟨a, ha⟩, rfl⟩ := ok?_eq_some hok
    unfold flush at hr
    split at hr
    · exact drain_settled hc hr ha ht
    · cases hr; exact absurd ht ‹_›
  | advance ms =>
    obtain ⟨r, hr, hok⟩ := Option.bind_eq_some_iff.mp h
    obtain ⟨⟨a, ha⟩, rfl⟩ := ok?_eq_some hok
    exact advance_settled hc hr ha ht
  | _ => cases h

/-! ## After the end -/

theorem ended_of_strides (hs : s.status = .stopped) (hst : Strides s t) : Ended s t := by
  induction hst with
  | refl => exact ⟨hs, rfl, rfl, [], (List.append_nil _).symm⟩
  | @tail u _ _ hst ih =>
    obtain ⟨hstatus, hsnapshot, hjournal, items, hseen⟩ := ih
    cases hst with
    | unstarted hn _ => exact absurd (hstatus.symm.trans hn) (by decide)
    | started hn _ => exact absurd (hstatus.symm.trans hn) (by decide)
    | turn =>
      have hidle : u.turn = .idle u.collect := turn_eq_idle fun hrun => by
        rw [(collect_frame u).status, hstatus] at hrun
        cases hrun
      rw [hidle, Turn.session, collect_eq]
      refine ⟨hstatus, hsnapshot, hjournal, items ++ u.mailbox.map .posted, ?_⟩
      rw [List.map_append, List.map_map, ← List.append_assoc, ← hseen]
      simp [Session.seen, Function.comp_def]
    | fired hn _ => exact absurd (hstatus.symm.trans hn) (by decide)
    | waited _ => exact ⟨hstatus, hsnapshot, hjournal, items, hseen⟩

theorem turns_of_strides (hs : s.status = .stopped) (hst : Strides s t) :
    t.status = .stopped ∧ turns [] t.seen = turns [] s.seen := by
  obtain ⟨hstatus, -, -, items, hseen⟩ := ended_of_strides hs hst
  exact ⟨hstatus, by rw [hseen, turns_append, turns_queued, List.append_nil]⟩

/-- A later call leaves the queue alone. -/
theorem after_of_stopped (hs : s.status = .stopped) {call : Call} (kept : call ≠ .takeTrace)
    (h : s.after fuel call = some t) : t.status = .stopped ∧ ∃ seen, Aside s seen t := by
  have hrun : ¬s.status = .running := by rw [hs]; decide
  cases call with
  | start => simp only [after, start, hs] at h; cases h; exact ⟨hs, [], .refl s⟩
  | send event => simp only [after, send, hs] at h; cases h; exact ⟨hs, [], .refl s⟩
  | flush => simp only [after, flush, if_neg hrun] at h; cases h; exact ⟨hs, [], .refl s⟩
  | advance ms => simp only [after, advance, if_pos hrun] at h; cases h; exact ⟨hs, [], .refl s⟩
  | stop => cases h; exact ⟨stop_status s, stop_aside s⟩
  | post number event =>
    cases h; exact ⟨(post_frame s number event).status.trans hs, post_aside s number event⟩
  | takeTrace => exact absurd rfl kept
  | subscribe => cases h; exact ⟨hs, [], .of_eq rfl rfl rfl rfl id⟩
  | unsubscribe listener => cases h; exact ⟨hs, [], .of_eq rfl rfl rfl rfl id⟩
  | clock time => cases h; exact ⟨hs, [], .of_eq rfl rfl rfl rfl id⟩

theorem turns_of_after (hs : s.status = .stopped) {call : Call} (kept : call ≠ .takeTrace)
    (h : s.after fuel call = some t) : t.status = .stopped ∧ turns [] t.seen = turns [] s.seen := by
  obtain ⟨hstatus, seen, ha⟩ := after_of_stopped hs kept h
  exact ⟨hstatus, by rw [ha.seen_eq, turns_append, turns_aside ha.aside, List.append_nil]⟩

end Session

end Statechart
