import Statechart.Proofs.Session.Resources

/-!
# What a trace tells

A trace lists what could be seen, the oldest first. Read from front to back it tells which
events were sent, fired and posted, which were put in the queue, which actors ran at each
point, and what each turn of the queue came to.

Between two turns a session does much that leaves the queue alone: effects, actors, listeners.
All of it is one relation (`Aside`): `t` is `s` after `seen`, where `seen` puts nothing in the
queue and takes nothing from it, and the mailbox and the handles are those of `s` brought up
to date by `seen`.

* `apply_aside`: a macrostep that is taken over.
* `stop_aside`, `post_aside`: the calls that work off nothing.
* `collect_eq`: the posts that are moved to the queue.
* `Calm`: what changes neither actors nor timers.
* `apply_eq`: what is left of a macrostep besides its commands.
-/
namespace Statechart

namespace Observation

variable {C E : Type}

def sent? : Observation C E → Option Event
  | .sent event => some event
  | _ => none

/-- An event from outside of the actors: one that was sent, or that of a timer. -/
def arrived? : Observation C E → Option Event
  | .sent event => some event
  | .fired timer => some timer.event
  | _ => none

def fired? : Observation C E → Option Timer
  | .fired timer => some timer
  | _ => none

/-- A post, with the handle that it came through. -/
def posted? : Observation C E → Option (Handle × Event)
  | .posted handle event => some (handle, event)
  | _ => none

def queued? : Observation C E → Option Queued
  | .queued item => some item
  | _ => none

/-- The handles of the actors that run after an observation, given those that ran before. -/
def running (handles : List Handle) : Observation C E → List Handle
  | .started handle _ => handles ++ [handle]
  | .stopped handle => handles.filter (·.number != handle.number)
  | _ => handles

/-- A turn of the queue as it was seen. -/
structure Turn where
  event : Event
  /-- Whether the event was given to the machine; it was dropped if not. -/
  handled : Bool
  /-- The handles of the actors that ran at that time. -/
  running : List Handle
deriving DecidableEq

def turn? (handles : List Handle) : Observation C E → Option Turn
  | .handled event => some ⟨event, true, handles⟩
  | .dropped item => some ⟨item.event, false, handles⟩
  | _ => none

/-- Whether an observation tells of something that does not concern the queue. -/
def isAside : Observation C E → Bool
  | .sent _ | .fired _ | .queued _ | .dropped _ | .handled _ => false
  | _ => true

/-- Whether an observation tells neither of a callback of an actor nor of a timer. -/
def isCalm : Observation C E → Bool
  | .started _ _ | .received _ _ | .stopped _ | .fired _ => false
  | _ => true

/-- The handles of the actors that run after a number of observations. -/
def runningAfter (handles : List Handle) (seen : List (Observation C E)) : List Handle :=
  seen.foldl running handles

/-- The turns that a number of observations tell of. -/
def turns : List Handle → List (Observation C E) → List Turn
  | _, [] => []
  | handles, o :: seen => (o.turn? handles).toList ++ turns (o.running handles) seen

/-- The event of a post as it waits: it names the actor it came from. -/
def mail (post : Handle × Event) : Event := post.2.ofOrigin post.1.id

theorem runningAfter_append (handles : List Handle) (seen more : List (Observation C E)) :
    runningAfter handles (seen ++ more) = runningAfter (runningAfter handles seen) more :=
  List.foldl_append

theorem turns_append (handles : List Handle) (seen more : List (Observation C E)) :
    turns handles (seen ++ more) =
      turns handles seen ++ turns (runningAfter handles seen) more := by
  induction seen generalizing handles with
  | nil => rfl
  | cons o seen ih =>
    rw [List.cons_append, turns, turns, ih, List.append_assoc]
    rfl

theorem turns_queued (handles : List Handle) (items : List Queued) :
    turns handles (items.map .queued : List (Observation C E)) = [] := by
  induction items with
  | nil => rfl
  | cons item items ih => exact ih

section Aside

variable {seen : List (Observation C E)} (h : ∀ o ∈ seen, o.isAside = true)
include h

theorem turns_aside (handles : List Handle) : turns handles seen = [] := by
  induction seen generalizing handles with
  | nil => rfl
  | cons o seen ih =>
    have ho := h o (by simp)
    rw [turns, ih fun p hp => h p (by simp [hp])]
    cases o <;> first | rfl | simp [isAside] at ho

theorem sent_aside : seen.filterMap sent? = [] :=
  List.filterMap_eq_nil_iff.mpr fun o ho => by
    have := h o ho; cases o <;> first | rfl | simp [isAside] at this

theorem arrived_aside : seen.filterMap arrived? = [] :=
  List.filterMap_eq_nil_iff.mpr fun o ho => by
    have := h o ho; cases o <;> first | rfl | simp [isAside] at this

theorem fired_aside : seen.filterMap fired? = [] :=
  List.filterMap_eq_nil_iff.mpr fun o ho => by
    have := h o ho; cases o <;> first | rfl | simp [isAside] at this

theorem queued_aside : seen.filterMap queued? = [] :=
  List.filterMap_eq_nil_iff.mpr fun o ho => by
    have := h o ho; cases o <;> first | rfl | simp [isAside] at this

end Aside

end Observation

namespace Session

open Observation

variable {C E A : Type}

def seen (s : Session C E A) : List (Observation C E) := s.trace.toList

@[simp] theorem seen_note (s : Session C E A) (o : Observation C E) :
    (s.note o).seen = s.seen ++ [o] := Array.toList_push

/-- `t` is `s` after `seen`, which does not concern the queue; but the session may have ended,
and its queue with it. -/
structure Aside (s : Session C E A) (seen : List (Observation C E)) (t : Session C E A) :
    Prop where
  aside : ∀ o ∈ seen, o.isAside = true
  seen_eq : t.seen = s.seen ++ seen
  handles_eq : t.handles = runningAfter s.handles seen
  mailbox_eq : t.mailbox = s.mailbox ++ (seen.filterMap posted?).map mail
  queue_eq : t.status ≠ .stopped → s.status ≠ .stopped ∧ t.queue = s.queue

namespace Aside

variable {s t u : Session C E A} {l k : List (Observation C E)}

/-- Nothing is seen, and what changes has nothing to do with the queue. -/
theorem of_eq (htrace : t.trace = s.trace) (hactors : t.actors = s.actors)
    (hmailbox : t.mailbox = s.mailbox) (hqueue : t.queue = s.queue)
    (hstatus : t.status ≠ .stopped → s.status ≠ .stopped) : Aside s [] t where
  aside := by simp
  seen_eq := by rw [seen, htrace, List.append_nil]; rfl
  handles_eq := by rw [handles, hactors]; rfl
  mailbox_eq := by rw [hmailbox]; exact (List.append_nil _).symm
  queue_eq h := ⟨hstatus h, hqueue⟩

theorem refl (s : Session C E A) : Aside s [] s := .of_eq rfl rfl rfl rfl id

theorem trans (h : Aside s l t) (h' : Aside t k u) : Aside s (l ++ k) u where
  aside o ho := (List.mem_append.mp ho).elim (h.aside o) (h'.aside o)
  seen_eq := by rw [h'.seen_eq, h.seen_eq, List.append_assoc]
  handles_eq := by rw [h'.handles_eq, h.handles_eq]; exact (runningAfter_append _ _ _).symm
  mailbox_eq := by
    rw [h'.mailbox_eq, h.mailbox_eq, List.append_assoc, List.filterMap_append, List.map_append]
  queue_eq hu := by
    obtain ⟨ht, hq⟩ := h'.queue_eq hu
    obtain ⟨hs, hq'⟩ := h.queue_eq ht
    exact ⟨hs, hq.trans hq'⟩

theorem foldl {α : Type} {f : Session C E A → α → Session C E A}
    (hf : ∀ s a, ∃ seen, Aside s seen (f s a)) :
    ∀ (l : List α) (s : Session C E A), ∃ seen, Aside s seen (l.foldl f s)
  | [], s => ⟨[], .refl s⟩
  | a :: l, s => by
    obtain ⟨k, hk⟩ := hf s a
    obtain ⟨k', hk'⟩ := foldl hf l (f s a)
    exact ⟨k ++ k', hk.trans hk'⟩

end Aside

/-! ## What a macrostep asks for -/

/-- Something is seen that has nothing to do with queue, mailbox and handles. -/
theorem note_aside (s : Session C E A) {o : Observation C E} (ha : o.isAside = true)
    (hp : o.posted? = none) (hr : o.running s.handles = s.handles) : Aside s [o] (s.note o) where
  aside p hp := by rwa [List.mem_singleton.mp hp]
  seen_eq := seen_note s o
  handles_eq := hr.symm
  mailbox_eq := by simp [hp, note]
  queue_eq h := ⟨h, rfl⟩

theorem noteEffects_eq (s : Session C E A) (effects : List (String × E)) :
    s.noteEffects effects = { s with
      trace := s.trace ++ (effects.map fun e => Observation.effect e.1 e.2).toArray } := by
  unfold noteEffects
  induction effects generalizing s with
  | nil => simp
  | cons e effects ih =>
    rw [List.foldl_cons, ih]
    simp [note]

theorem noteEffects_aside (s : Session C E A) (effects : List (String × E)) :
    ∃ seen, Aside s seen (s.noteEffects effects) := by
  unfold noteEffects
  exact Aside.foldl (fun s e => ⟨_, note_aside s rfl rfl rfl⟩) effects s

theorem record_eq (s : Session C E A) (step : Macrostep C) :
    s.record step = { s with journal := (s.record step).journal } := by
  unfold record
  dsimp only
  split <;> rfl

/-- Listeners see a snapshot one after the other. -/
theorem publish_eq (s : Session C E A) (snapshot : Snapshot C) :
    s.publish snapshot = { s with
      trace := s.trace ++ (s.listeners.map fun l => Observation.published l snapshot).toArray } := by
  have fold : ∀ (l : List Nat) (s : Session C E A),
      l.foldl (fun s l => s.note (.published l snapshot)) s = { s with
        trace := s.trace ++ (l.map fun l => Observation.published l snapshot).toArray } := by
    intro l
    induction l with
    | nil => intro s; simp
    | cons a l ih =>
      intro s
      rw [List.foldl_cons, ih]
      simp [note]
  exact fold s.listeners s

theorem publish_aside (s : Session C E A) (snapshot : Snapshot C) :
    ∃ seen, Aside s seen (s.publish snapshot) := by
  unfold publish
  exact Aside.foldl (fun s l => ⟨_, note_aside s rfl rfl rfl⟩) s.listeners s

theorem record_aside (s : Session C E A) (step : Macrostep C) : Aside s [] (s.record step) := by
  unfold record
  dsimp only
  split
  · exact .of_eq rfl rfl rfl rfl id
  · exact .refl s

/-- The posts of an open handle join the mailbox, and are seen. -/
theorem accept_eq (s : Session C E A) {handle : Handle} (h : handle.alive = true)
    (posts : List Event) :
    s.accept handle posts = { s with
      mailbox := s.mailbox ++ posts.map fun e => mail (handle, e)
      trace := s.trace ++ (posts.map (Observation.posted handle)).toArray } := by
  rw [accept, if_pos h]
  induction posts generalizing s with
  | nil => simp
  | cons e posts ih =>
    rw [List.foldl_cons, ih]
    simp [takePost, note, mail]

theorem accept_of_closed (s : Session C E A) {handle : Handle} (h : handle.alive = false)
    (posts : List Event) : s.accept handle posts = s := by
  rw [accept, if_neg (by simp [h])]

theorem runningAfter_posted (handles : List Handle) (handle : Handle) (posts : List Event) :
    runningAfter handles (posts.map (Observation.posted (C := C) (E := E) handle)) = handles := by
  induction posts with
  | nil => rfl
  | cons e posts ih => exact ih

theorem accept_aside (s : Session C E A) (handle : Handle) (posts : List Event) :
    ∃ seen, Aside s seen (s.accept handle posts) := by
  cases ha : handle.alive with
  | false => exact ⟨[], by rw [accept_of_closed s ha]; exact .refl s⟩
  | true =>
    refine ⟨posts.map (Observation.posted handle), ?_⟩
    rw [accept_eq s ha]
    refine ⟨by simp [isAside], by simp [seen], ?_, ?_, fun h => ⟨h, rfl⟩⟩
    · exact (runningAfter_posted _ _ _).symm
    · rw [List.filterMap_map, show posted? ∘ Observation.posted (C := C) (E := E) handle =
        some ∘ Prod.mk handle from rfl, List.filterMap_eq_map, List.map_map]
      rfl

theorem Aside.accept {s t : Session C E A} {l : List (Observation C E)} (h : Aside s l t)
    (handle : Handle) (posts : List Event) : ∃ seen, Aside s seen (t.accept handle posts) := by
  obtain ⟨k, hk⟩ := accept_aside t handle posts
  exact ⟨l ++ k, h.trans hk⟩

theorem stopRunning_eq (s : Session C E A) (a : RunningActor C A) :
    s.stopRunning a = s.note (.stopped a.handle.close) := accept_of_closed _ rfl _

theorem startActor_eq (s : Session C E A) (context : C) (id : String) (source : ActorSource C A) :
    let handle : Handle := { number := s.started, id }
    let r := source.start (source.create context) handle
    s.startActor context id source =
      ({ s with
          started := s.started + 1
          actors := s.actors ++ [(⟨handle, source, r.actor⟩ : RunningActor C A)] }.note
        (.started handle context)).accept handle r.posts := by
  dsimp only
  rw [startActor, accept_eq _ rfl, accept_eq _ rfl]
  rfl

theorem startActor_aside (s : Session C E A) (context : C) (id : String)
    (source : ActorSource C A) : ∃ seen, Aside s seen (s.startActor context id source) := by
  rw [startActor_eq]
  refine Aside.accept (l := [.started { number := s.started, id } context]) ?_ _ _
  refine ⟨?_, seen_note _ _, ?_, ?_, fun h => ⟨h, rfl⟩⟩
  · simp [isAside]
  · simp [handles, note, runningAfter, running]
  · simp [note, posted?]

theorem stopActor_aside (s : Session C E A) (id : String) :
    ∃ seen, Aside s seen (s.stopActor id) := by
  unfold stopActor
  split
  · exact ⟨[], .refl s⟩
  · rename_i a _
    rw [stopRunning_eq]
    refine ⟨_, ⟨?_, seen_note _ _, ?_, ?_, fun h => ⟨h, rfl⟩⟩⟩
    · simp [isAside]
    · simp [runningAfter, running, handles, note, Handle.close, List.filter_map, Function.comp_def]
    · simp [note, posted?]

theorem deliver_aside (s : Session C E A) (id : String) (event : Event) :
    ∃ seen, Aside s seen (s.deliver id event) := by
  unfold deliver
  split
  · exact ⟨[], .refl s⟩
  · rename_i a _
    refine Aside.accept (l := [.received a.handle event]) ?_ _ _
    refine ⟨?_, seen_note _ _, ?_, ?_, fun h => ⟨h, rfl⟩⟩
    · simp [isAside]
    · simp only [handles, note, runningAfter, running, List.foldl_cons, List.foldl_nil,
        List.map_map]
      refine List.map_congr_left fun b _ => ?_
      rw [Function.comp_apply]
      split <;> rfl
    · simp [note, posted?]

/-- A command is carried out without a look at the queue. -/
theorem execute_aside (context : C) (s : Session C E A) (command : Command) :
    ∃ seen, Aside s seen (s.execute context command) := by
  cases command with
  | schedule owner event delayMs => exact ⟨[], .of_eq rfl rfl rfl rfl id⟩
  | cancelTimers owner => exact ⟨[], .of_eq rfl rfl rfl rfl id⟩
  | invoke owner id src =>
    dsimp only [execute]
    split
    · exact ⟨[], .refl s⟩
    · exact startActor_aside s context id _
  | stopActor id => exact stopActor_aside s id
  | sendTo actor event => exact deliver_aside s actor event

/-- Stopping actors takes out those with their numbers. -/
theorem runningAfter_stopped (stopped : List Handle) (handles : List Handle) :
    runningAfter handles (stopped.map fun h => Observation.stopped (C := C) (E := E) h.close) =
      handles.filter fun h => stopped.all fun k => h.number != k.number := by
  induction stopped generalizing handles with
  | nil => exact (List.filter_eq_self.mpr fun _ _ => rfl).symm
  | cons k stopped ih =>
    rw [List.map_cons, runningAfter, List.foldl_cons]
    refine (ih _).trans ?_
    simp [running, Handle.close, List.filter_filter, Bool.and_comm]

theorem foldl_stopRunning (l : List (RunningActor C A)) (s : Session C E A) :
    l.foldl stopRunning s =
      { s with trace := s.trace ++ (l.map fun a => Observation.stopped a.handle.close).toArray } := by
  induction l generalizing s with
  | nil => simp
  | cons a l ih =>
    rw [List.foldl_cons, ih, stopRunning_eq]
    simp [note]

/-- Stopping all actors, the last started first, leaves none. -/
theorem runningAfter_all (handles : List Handle) :
    runningAfter handles
      (handles.reverse.map fun h => Observation.stopped (C := C) (E := E) h.close) = [] := by
  rw [runningAfter_stopped, List.filter_eq_nil_iff]
  intro h hh
  rw [Bool.not_eq_true, List.all_eq_false]
  exact ⟨h, by simpa using hh, by simp⟩

/-- The end of a session takes everything away, and is seen by the actors only. -/
theorem teardown_eq (s : Session C E A) :
    s.teardown = { s with
      timers := s.timers.clear
      actors := []
      queue := []
      status := .stopped
      trace := s.trace ++
        (s.handles.reverse.map fun h => Observation.stopped h.close).toArray } := by
  unfold teardown
  rw [foldl_stopRunning, handles, ← List.map_reverse, List.map_map]
  rfl

theorem teardown_aside (s : Session C E A) : ∃ seen, Aside s seen s.teardown := by
  refine ⟨s.handles.reverse.map fun h => .stopped h.close, ?_⟩
  rw [teardown_eq]
  refine ⟨by simp [isAside], by simp [seen], ?_, ?_, fun h => absurd rfl h⟩
  · exact (runningAfter_all s.handles).symm
  · simp [List.filterMap_map, Function.comp_def, posted?]

/-- A macrostep is taken over without a look at the queue, unless it ends the session. -/
theorem apply_aside (s : Session C E A) (step : Macrostep C) :
    ∃ seen, Aside s seen (s.apply step) := by
  obtain ⟨k₁, h₁⟩ := Aside.foldl (execute_aside step.snapshot.context) step.commands s
  have h₂ := record_aside (step.commands.foldl (execute step.snapshot.context) s) step
  obtain ⟨k₃, h₃⟩ := publish_aside ((step.commands.foldl (execute step.snapshot.context) s).record
    step) step.snapshot
  have h := (h₁.trans h₂).trans h₃
  unfold apply
  dsimp only
  generalize ((step.commands.foldl (execute step.snapshot.context) s).record step).publish
    step.snapshot = t at h ⊢
  have ht := h.trans (.of_eq rfl rfl rfl rfl id : Aside t [] { t with snapshot := some step.snapshot })
  split
  · obtain ⟨k₄, h₄⟩ := teardown_aside { t with snapshot := some step.snapshot }
    exact ⟨_, ht.trans h₄⟩
  · exact ⟨_, ht⟩

theorem stop_aside (s : Session C E A) : ∃ seen, Aside s seen s.stop.session := by
  unfold stop
  split
  · exact ⟨[], .refl s⟩
  · exact ⟨[], by simp, by simp [done, seen], rfl, by simp [done], fun h => absurd rfl h⟩
  · exact teardown_aside s
  · rename_i snapshot _ _
    obtain ⟨k, hk⟩ := noteEffects_aside s (s.machine.exitStep snapshot .live).effects
    obtain ⟨k', hk'⟩ := teardown_aside (s.noteEffects (s.machine.exitStep snapshot .live).effects)
    dsimp only
    split
    · exact ⟨_, hk.trans hk'⟩
    · exact ⟨_, hk.trans hk'⟩

theorem post_aside (s : Session C E A) (number : Nat) (event : Event) :
    ∃ seen, Aside s seen (s.post number event) := by
  unfold post
  split
  · exact ⟨[], .refl s⟩
  · exact accept_aside s _ _

/-! ## The queue -/

/-- Collecting moves the mailbox to the end of the queue, event by event. -/
theorem collect_eq (s : Session C E A) :
    s.collect = { s with
      mailbox := []
      queue := s.queue ++ s.mailbox.map .posted
      trace := s.trace ++ (s.mailbox.map fun e => Observation.queued (.posted e)).toArray } := by
  have fold : ∀ (l : List Event) (s : Session C E A),
      l.foldl (fun s e => s.enqueue (.posted e)) s = { s with
        queue := s.queue ++ l.map .posted
        trace := s.trace ++ (l.map fun e => Observation.queued (.posted e)).toArray } := by
    intro l
    induction l with
    | nil => intro s; simp
    | cons e l ih =>
      intro s
      rw [List.foldl_cons, ih]
      simp [enqueue, note]
  exact fold s.mailbox { s with mailbox := [] }

theorem collect_of_nil {s : Session C E A} (h : s.mailbox = []) : s.collect = s := by
  cases s; cases h; rfl

/-! ## What leaves actors and timers alone -/

/-- From `s` to `t` no callback of an actor is run and no timer is set, cancelled or fired. -/
structure Calm (s t : Session C E A) : Prop extends Frame s t where
  seen : ∃ l, t.seen = s.seen ++ l ∧ ∀ o ∈ l, o.isCalm = true

namespace Calm

variable {s t u : Session C E A}

theorem of_trace (h : Frame s t) (ht : t.trace = s.trace) : Calm s t :=
  ⟨h, [], by rw [Session.seen, ht, List.append_nil]; rfl, by simp⟩

theorem trans (h : Calm s t) (h' : Calm t u) : Calm s u := by
  obtain ⟨hf, l, hl, ha⟩ := h
  obtain ⟨hf', l', hl', ha'⟩ := h'
  refine ⟨hf.trans hf', l ++ l', by rw [hl', hl, List.append_assoc], fun o ho => ?_⟩
  exact (List.mem_append.mp ho).elim (ha o) (ha' o)

theorem foldl {α : Type} {f : Session C E A → α → Session C E A} (hf : ∀ s a, Calm s (f s a)) :
    ∀ (l : List α) (s : Session C E A), Calm s (l.foldl f s)
  | [], s => .of_trace (.refl s) rfl
  | a :: l, s => (hf s a).trans (foldl hf l (f s a))

theorem note (s : Session C E A) {o : Observation C E} (ho : o.isCalm = true) :
    Calm s (s.note o) :=
  ⟨note_frame s o, [o], seen_note s o, by simpa using ho⟩

theorem noteEffects (s : Session C E A) (effects : List (String × E)) :
    Calm s (s.noteEffects effects) := .foldl (fun s _ => .note s rfl) effects s

theorem enqueue (s : Session C E A) (item : Queued) : Calm s (s.enqueue item) :=
  ⟨enqueue_frame s item, [.queued item], seen_note _ _, by simp [isCalm]⟩

theorem accept (s : Session C E A) (handle : Handle) (posts : List Event) :
    Calm s (s.accept handle posts) := by
  refine ⟨accept_frame s handle posts, ?_⟩
  cases ha : handle.alive with
  | false => exact ⟨[], by rw [accept_of_closed s ha, List.append_nil], by simp⟩
  | true =>
    refine ⟨posts.map (.posted handle), ?_, by simp [isCalm]⟩
    simp [accept_eq s ha, Session.seen]

theorem collect (s : Session C E A) : Calm s s.collect := by
  refine ⟨collect_frame s, s.mailbox.map fun e => .queued (.posted e), ?_, by simp [isCalm]⟩
  simp [collect_eq, Session.seen]

theorem record (s : Session C E A) (step : Macrostep C) : Calm s (s.record step) :=
  .of_trace (record_frame s step) (by unfold Session.record; dsimp only; split <;> rfl)

theorem publish (s : Session C E A) (snapshot : Snapshot C) : Calm s (s.publish snapshot) :=
  .foldl (fun s _ => .note s rfl) s.listeners s

theorem post (s : Session C E A) (number : Nat) (event : Event) :
    Calm s (s.post number event) := by
  unfold Session.post
  split
  · exact .of_trace (.refl s) rfl
  · exact .accept s _ _

end Calm

/-- A macrostep is taken over by its commands and its snapshot, and may end the session. -/
theorem apply_eq (s : Session C E A) (step : Macrostep C) :
    ∃ t, Calm (step.commands.foldl (execute step.snapshot.context) s) t ∧
      s.apply step = if step.snapshot.done
        then { t with snapshot := some step.snapshot }.teardown
        else { t with snapshot := some step.snapshot } :=
  ⟨_, (Calm.record _ step).trans (.publish _ step.snapshot), rfl⟩

end Session

end Statechart
