import Mathlib.Logic.Relation
import Statechart.Session.Calls

/-!
# Calls as strides

A call first does what its caller asks for, such as putting an event at the end of the queue
(`upon`). Then it does one thing after another to the session: it takes over the start, takes
one turn of the queue, fires one timer, and so on (`Stride`). A call that comes to a reply, with
an answer or with an error, has made finitely many strides. So what the beginnings of calls and
every stride keep holds of every session that calls lead to, however they are ordered and
whichever of them fail.

* `took`, `turn_eq_handle`, `turn_eq_idle`: what a turn of the queue comes to.
* `drain_strides`, `fire_strides`: the calls that repeat themselves.
* `after_strides`: every call.
* `Reachable.of_stride`, `Run.of_stride`: what is kept holds after every call.
* `During.of_stride`: it holds in the middle of a call as well.
* `During.of_stride_of_kept`: the same where the trace tells of the whole run.
-/
namespace Statechart

/-- A call of a session. -/
inductive Call where
  | start
  | send (event : Event)
  | flush
  | advance (ms : Nat)
  | stop
  | post (number : Nat) (event : Event)
  | subscribe
  | unsubscribe (listener : Nat)
  | takeTrace
  /-- The time of day is another one now. -/
  | clock (time : Timestamp)

namespace Session

variable {C E A : Type} [BEq C]

/-- The session after a call, if the call comes to a reply with that fuel. -/
def after (fuel : Nat) (s : Session C E A) : Call → Option (Session C E A)
  | .start => (s.start fuel).map Reply.session
  | .send event => (s.send fuel event).map Reply.session
  | .flush => (s.flush fuel).map Reply.session
  | .advance ms => (s.advance fuel ms).map Reply.session
  | .stop => some s.stop.session
  | .post number event => some (s.post number event)
  | .subscribe => some s.subscribe.2
  | .unsubscribe listener => some (s.unsubscribe listener).2
  | .takeTrace => some s.takeTrace.2
  | .clock time => some { s with time }

/-- What a call does to a session first. -/
def upon (s : Session C E A) : Call → Session C E A
  | .send event =>
    if s.status = .stopped then s else (s.note (.sent event)).enqueue (.external event)
  | .stop => s.stop.session
  | .post number event => s.post number event
  | .subscribe => s.subscribe.2
  | .unsubscribe listener => (s.unsubscribe listener).2
  | .takeTrace => s.takeTrace.2
  | .clock time => { s with time }
  | .start | .flush | .advance _ => s

/-- The sessions that calls lead to. A call need not succeed, it only has to come to a reply. -/
inductive Reachable (m : Machine C E A) : Session C E A → Prop
  | initial (name : String) (journalLimit : Option Nat) :
      Reachable m (ofMachine m name journalLimit)
  | call {s t : Session C E A} {fuel : Nat} {call : Call} (hs : Reachable m s)
      (h : s.after fuel call = some t) : Reachable m t

/-- The calls that lead to a session, in their order. -/
inductive Run (m : Machine C E A) : List Call → Session C E A → Prop
  | initial (name : String) (journalLimit : Option Nat) :
      Run m [] (ofMachine m name journalLimit)
  | call {calls : List Call} {s t : Session C E A} {fuel : Nat} {call : Call} (hs : Run m calls s)
      (h : s.after fuel call = some t) : Run m (calls ++ [call]) t

def Turn.session : Turn C E A → Session C E A
  | .idle s => s
  | .again s => s
  | .failed _ s => s

/-- What a turn comes to, once posts are collected: nothing, an event that is dropped, or one that
is given to the machine. -/
inductive Took (s : Session C E A) : Turn C E A → Prop
  | idle (h : s.collect.status = .running → s.collect.queue = [] ∨ s.collect.snapshot = none) :
      Took s (.idle s.collect)
  | dropped {item : Queued} {rest : List Queued} {snapshot : Snapshot C}
      (hs : s.collect.status = .running) (hq : s.collect.queue = item :: rest)
      (hd : s.collect.drops item = true) (hsnapshot : s.collect.snapshot = some snapshot) :
      Took s (.again ({ s.collect with queue := rest }.note (.dropped item)))
  | handled {item : Queued} {rest : List Queued} {snapshot : Snapshot C}
      (hs : s.collect.status = .running) (hq : s.collect.queue = item :: rest)
      (hd : s.collect.drops item = false) (hsnapshot : s.collect.snapshot = some snapshot) :
      Took s ({ s.collect with queue := rest }.handle snapshot item.event)

theorem took (s : Session C E A) : Took s s.turn := by
  unfold Session.turn
  dsimp only
  split
  · rename_i hs
    exact .idle fun hr => absurd hr hs
  · rename_i hs
    have hs : s.collect.status = .running := Decidable.not_not.mp hs
    split
    · rename_i item rest snapshot hq hsnapshot
      split
      · rename_i hd
        exact .dropped hs hq hd hsnapshot
      · rename_i hd
        exact .handled hs hq (Bool.eq_false_iff.mpr hd) hsnapshot
    · rename_i hno
      refine .idle fun _ => ?_
      cases hq : s.collect.queue with
      | nil => exact .inl rfl
      | cons item rest =>
        exact .inr (Option.eq_none_iff_forall_ne_some.mpr fun snapshot => hno item rest snapshot hq)

/-- An event that is not dropped is given to the machine. -/
theorem turn_eq_handle {s : Session C E A} {item : Queued} {rest : List Queued}
    {snapshot : Snapshot C} (hs : s.collect.status = .running)
    (hq : s.collect.queue = item :: rest) (hd : s.collect.drops item = false)
    (hsnapshot : s.collect.snapshot = some snapshot) :
    s.turn = { s.collect with queue := rest }.handle snapshot item.event := by
  unfold Session.turn
  dsimp only
  rw [if_neg (Decidable.not_not.mpr hs), hq, hsnapshot]
  exact if_neg (Bool.eq_false_iff.mp hd)

theorem turn_eq_idle {s : Session C E A} (h : s.collect.status = .running →
    s.collect.queue = [] ∨ s.collect.snapshot = none) : s.turn = .idle s.collect := by
  have hnone {item : Queued} {rest : List Queued} {snapshot : Snapshot C}
      (hs : s.collect.status = .running) (hq : s.collect.queue = item :: rest)
      (hsnapshot : s.collect.snapshot = some snapshot) : False := by
    rcases h hs with hnil | hnil
    · rw [hq] at hnil; cases hnil
    · rw [hsnapshot] at hnil; cases hnil
  have ht := s.took
  generalize s.turn = turn at ht ⊢
  cases ht with
  | idle _ => rfl
  | dropped hs hq _ hsnapshot => exact (hnone hs hq hsnapshot).elim
  | handled hs hq _ hsnapshot => exact (hnone hs hq hsnapshot).elim

theorem of_turn_idle {s t : Session C E A} (h : s.turn = .idle t) : t = s.collect ∧
    (s.collect.status = .running → s.collect.queue = [] ∨ s.collect.snapshot = none) := by
  have ht := s.took
  generalize s.turn = turn at ht h
  cases ht with
  | idle hidle => cases h; exact ⟨rfl, hidle⟩
  | dropped _ _ _ _ => cases h
  | handled _ _ _ _ =>
    unfold Session.handle at h
    dsimp only at h
    split at h <;> cases h

/-- One thing that a call does to a session. -/
inductive Stride : Session C E A → Session C E A → Prop
  /-- The start fails: only its effects are seen. -/
  | unstarted {s : Session C E A} {failure : Failure} (hs : s.status = .notStarted)
      (h : (s.machine.startStep .live).result = .error failure) :
      Stride s (s.noteEffects (s.machine.startStep .live).effects)
  | started {s : Session C E A} {step : Macrostep C} (hs : s.status = .notStarted)
      (h : (s.machine.startStep .live).result = .ok step) :
      Stride s
        ({ s.noteEffects (s.machine.startStep .live).effects with status := .running }.apply step)
  | turn (s : Session C E A) : Stride s s.turn.session
  | fired {s : Session C E A} {limit : Nat} {timer : Timer} {timers : Timers}
      (hs : s.status = .running) (h : s.timers.take? limit = some (timer, timers)) :
      Stride s (({ s with timers }.note (.fired timer)).enqueue (.external timer.event))
  /-- Time passes, with no timer left that is due. -/
  | waited {s : Session C E A} {limit : Nat}
      (h : s.status = .running → s.timers.take? limit = none) :
      Stride s { s with timers := s.timers.advanceTo limit }

/-- Any number of strides. -/
abbrev Strides : Session C E A → Session C E A → Prop := Relation.ReflTransGen Stride

variable {s t : Session C E A} {fuel : Nat}

theorem drain_strides : ∀ {fuel : Nat} {s : Session C E A} {r : Reply C E A Unit},
    s.drain fuel = some r → Strides s r.session := by
  intro fuel
  induction fuel with
  | zero => intro s r h; cases h
  | succ fuel ih =>
    intro s r h
    rw [drain] at h
    have first : Stride s s.turn.session := .turn s
    split at h
    · rename_i t ht
      cases h; rw [ht] at first; exact .single first
    · rename_i failure t ht
      cases h; rw [ht] at first; exact .single first
    · rename_i t ht
      rw [ht] at first; exact .head first (ih h)

/-- Firing goes on until no timer is due or the session does not run any more. -/
theorem fire_strides {limit : Nat} : ∀ {fuel : Nat} {s : Session C E A} {r : Reply C E A Unit},
    s.fire limit fuel = some r → Strides s r.session ∧
      (r.answer = .ok () → r.session.status = .running → r.session.timers.take? limit = none) := by
  intro fuel
  induction fuel with
  | zero => intro s r h; cases h
  | succ fuel ih =>
    intro s r h
    rw [fire] at h
    split at h
    · rename_i hs
      cases h; exact ⟨.refl, fun _ hr => absurd hr hs⟩
    · rename_i hs
      have hs : s.status = .running := Decidable.not_not.mp hs
      split at h
      · rename_i hn
        cases h; exact ⟨.refl, fun _ _ => hn⟩
      · rename_i timer timers ht
        simp only [Option.bind_eq_bind, Option.bind_eq_some_iff] at h
        obtain ⟨reply, hd, h⟩ := h
        have first := Relation.ReflTransGen.head (.fired hs ht) (drain_strides hd)
        split at h
        · cases h; exact ⟨first, fun he => by cases he⟩
        · exact ⟨first.trans (ih h).1, (ih h).2⟩

omit [BEq C] in
theorem current_session (s : Session C E A) : s.current.session = s := by
  unfold current; split <;> rfl

theorem start_strides {r : Reply C E A (Snapshot C)} (h : s.start fuel = some r) :
    Strides s r.session := by
  unfold start at h
  split at h
  · cases h; exact .refl
  · cases h; rw [current_session]
  · rename_i hs
    dsimp only at h
    split at h
    · rename_i failure he
      cases h; exact .single (.unstarted hs he)
    · rename_i step he
      simp only [Option.bind_eq_bind, Option.bind_eq_some_iff, Option.pure_def,
        Option.some.injEq] at h
      obtain ⟨reply, hd, rfl⟩ := h
      have first := Relation.ReflTransGen.head (.started hs he) (drain_strides hd)
      split
      · exact first
      · rwa [current_session]

theorem send_strides {event : Event} {r : Reply C E A Unit} (h : s.send fuel event = some r) :
    Strides (s.upon (.send event)) r.session := by
  unfold send at h
  split at h
  · rename_i hs
    cases h; rw [upon, if_pos hs]; exact .refl
  · rename_i hs
    cases h; rw [upon, if_neg (by rw [hs]; decide)]; exact .refl
  · rename_i hs
    rw [upon, if_neg (by rw [hs]; decide)]; exact drain_strides h

theorem flush_strides {r : Reply C E A Unit} (h : s.flush fuel = some r) :
    Strides s r.session := by
  unfold flush at h
  split at h
  · exact drain_strides h
  · cases h; exact .refl

theorem advance_strides {ms : Nat} {r : Reply C E A Unit} (h : s.advance fuel ms = some r) :
    Strides s r.session := by
  unfold advance at h
  split at h
  · cases h; exact .refl
  · simp only [Option.bind_eq_bind, Option.bind_eq_some_iff] at h
    obtain ⟨reply, hd, h⟩ := h
    have first := drain_strides hd
    cases ha : reply.answer with
    | error e => rw [ha] at h; cases h; exact first
    | ok _ =>
      simp only [ha, Option.bind_eq_some_iff] at h
      obtain ⟨fired, hf, h⟩ := h
      obtain ⟨second, hdue⟩ := fire_strides hf
      cases hb : fired.answer with
      | error e => rw [hb] at h; cases h; exact first.trans second
      | ok _ =>
        simp only [hb] at h
        cases h; exact (first.trans second).tail (.waited (hdue hb))

/-- A call that comes to a reply has made strides. -/
theorem after_strides {call : Call} (h : s.after fuel call = some t) :
    Strides (s.upon call) t := by
  cases call with
  | start =>
    obtain ⟨r, hr, rfl⟩ := Option.map_eq_some_iff.mp h
    exact start_strides hr
  | send event =>
    obtain ⟨r, hr, rfl⟩ := Option.map_eq_some_iff.mp h
    exact send_strides hr
  | flush =>
    obtain ⟨r, hr, rfl⟩ := Option.map_eq_some_iff.mp h
    exact flush_strides hr
  | advance ms =>
    obtain ⟨r, hr, rfl⟩ := Option.map_eq_some_iff.mp h
    exact advance_strides hr
  | stop => cases h; exact .refl
  | post number event => cases h; exact .refl
  | subscribe => cases h; exact .refl
  | unsubscribe listener => cases h; exact .refl
  | takeTrace => cases h; exact .refl
  | clock time => cases h; exact .refl

theorem Strides.keep {P : Session C E A → Prop} (stride : ∀ s t, P s → Stride s t → P t)
    (h : Strides s t) (hs : P s) : P t := by
  induction h with
  | refl => exact hs
  | tail _ hst ih => exact stride _ _ ih hst

/-- What calls and their strides keep holds after every call. -/
theorem Reachable.of_stride {m : Machine C E A} {P : Session C E A → Prop}
    (initial : ∀ name journalLimit, P (ofMachine m name journalLimit))
    (upon : ∀ s call, P s → P (s.upon call))
    (stride : ∀ s t, P s → Stride s t → P t) (hs : Reachable m s) : P s := by
  induction hs with
  | initial name journalLimit => exact initial name journalLimit
  | call _ h ih => exact (after_strides h).keep stride (upon _ _ ih)

/-- What calls and their strides keep holds after every run, where the calls are told apart
that the run consists of. -/
theorem Run.of_stride {m : Machine C E A} {P : List Call → Session C E A → Prop}
    (initial : ∀ name journalLimit, P [] (ofMachine m name journalLimit))
    (upon : ∀ calls s call, P calls s → P (calls ++ [call]) (s.upon call))
    (stride : ∀ calls s t, P calls s → Stride s t → P calls t) {calls : List Call}
    (hs : Run m calls s) : P calls s := by
  induction hs with
  | initial name journalLimit => exact initial name journalLimit
  | call _ h ih => exact (after_strides h).keep (stride _) (upon _ _ _ ih)

/-- The sessions that a run goes through: after its calls, or in the middle of the last of them,
whether that comes to a reply or not. -/
inductive During (m : Machine C E A) : List Call → Session C E A → Prop
  | rest {calls : List Call} {s : Session C E A} (h : Run m calls s) : During m calls s
  | amid {calls : List Call} {s t : Session C E A} {call : Call} (h : Run m calls s)
      (hst : Strides (s.upon call) t) : During m (calls ++ [call]) t

/-- What calls and their strides keep holds all the time. -/
theorem During.of_stride {m : Machine C E A} {P : List Call → Session C E A → Prop}
    (initial : ∀ name journalLimit, P [] (ofMachine m name journalLimit))
    (upon : ∀ calls s call, P calls s → P (calls ++ [call]) (s.upon call))
    (stride : ∀ calls s t, P calls s → Stride s t → P calls t) {calls : List Call}
    (hs : During m calls s) : P calls s := by
  cases hs with
  | rest h => exact h.of_stride initial upon stride
  | amid h hst => exact hst.keep (stride _) (upon _ _ _ (h.of_stride initial upon stride))

/-- The same where no call takes the trace away. -/
theorem During.of_stride_of_kept {m : Machine C E A} {P : List Call → Session C E A → Prop}
    (initial : ∀ name journalLimit, P [] (ofMachine m name journalLimit))
    (upon : ∀ calls s call, call ≠ .takeTrace → P calls s → P (calls ++ [call]) (s.upon call))
    (stride : ∀ calls s t, P calls s → Stride s t → P calls t) {calls : List Call}
    (hs : During m calls s) (kept : .takeTrace ∉ calls) : P calls s := by
  refine hs.of_stride (P := fun calls s => .takeTrace ∉ calls → P calls s)
    (fun name journalLimit _ => initial name journalLimit) (fun calls s call ih kept => ?_)
    (fun _ _ _ ih hst kept => stride _ _ _ (ih kept) hst) kept
  rw [List.mem_append, List.mem_singleton, not_or] at kept
  exact upon calls s call (Ne.symm kept.2) (ih kept.1)

end Session

end Statechart
