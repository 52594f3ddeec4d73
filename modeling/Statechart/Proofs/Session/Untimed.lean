import Statechart.Session.Calls

/-!
# The time of day is only written down

The steps of a journal carry the time of day at which they were entered. Nothing that a
session does depends on it: a session whose times are all struck out (`untimed`) does the same
as the session itself, and comes to the same with the times struck out.

* `untimed_apply`: a macrostep that is taken over.
* `untimed_turn`: one turn of the queue.
* `untimed_advance`: a call that lets time pass.
-/
namespace Statechart

def StepRecord.untimed (r : StepRecord) : StepRecord := { r with timestamp := .epoch }

def Journal.untimed (j : Journal) : Journal := { j with steps := j.steps.map StepRecord.untimed }

theorem Journal.untimed_push (j : Journal) (r : StepRecord) :
    (j.push r).untimed = j.untimed.push r.untimed := by
  obtain ⟨steps, limit⟩ := j
  match limit with
  | none => simp [push, untimed]
  | some 0 => rfl
  | some (n + 1) => simp [push, untimed]

def Session.untimed {C E A : Type} (s : Session C E A) : Session C E A :=
  { s with time := .epoch, journal := s.journal.untimed }

/-- A reply whose session is without times of day. -/
def Reply.untimed {C E A α : Type} (r : Reply C E A α) : Reply C E A α :=
  ⟨r.answer, r.session.untimed⟩

namespace Session

variable {C E A : Type}

/-- A turn whose session is without times of day. -/
def Turn.untimed : Turn C E A → Turn C E A
  | .idle s => .idle s.untimed
  | .again s => .again s.untimed
  | .failed failure s => .failed failure s.untimed

/-! ## One thing after another -/

theorem untimed_foldl {α : Type} {f : Session C E A → α → Session C E A}
    (hf : ∀ s a, (f s a).untimed = f s.untimed a) (l : List α) (s : Session C E A) :
    (l.foldl f s).untimed = l.foldl f s.untimed :=
  (List.foldl_hom untimed fun s a => (hf s a).symm).symm

variable (s : Session C E A)

theorem untimed_noteEffects (effects : List (String × E)) :
    (s.noteEffects effects).untimed = s.untimed.noteEffects effects :=
  untimed_foldl (fun _ _ => rfl) effects s

theorem untimed_accept (handle : Handle) (posts : List Event) :
    (s.accept handle posts).untimed = s.untimed.accept handle posts := by
  unfold accept
  split
  · exact untimed_foldl (fun _ _ => rfl) posts s
  · rfl

theorem untimed_startActor (context : C) (id : String) (source : ActorSource C A) :
    (s.startActor context id source).untimed = s.untimed.startActor context id source := by
  let handle : Handle := { number := s.started, id }
  let r := source.start (source.create context) handle
  let begun : Session C E A := { s with started := s.started + 1 }
  let running : RunningActor C A := ⟨handle, source, r.actor⟩
  exact congrArg (fun t : Session C E A => { t with actors := t.actors ++ [running] })
    (untimed_accept (begun.note (.started handle context)) handle r.posts)

theorem untimed_stopRunning (a : RunningActor C A) :
    (s.stopRunning a).untimed = s.untimed.stopRunning a :=
  untimed_accept _ _ _

theorem untimed_stopActor (id : String) : (s.stopActor id).untimed = s.untimed.stopActor id := by
  have hactor : s.untimed.actor? id = s.actor? id := rfl
  unfold stopActor
  rw [hactor]
  split
  · rfl
  · exact untimed_stopRunning _ _

theorem untimed_deliver (id : String) (event : Event) :
    (s.deliver id event).untimed = s.untimed.deliver id event := by
  have hactor : s.untimed.actor? id = s.actor? id := rfl
  unfold deliver
  rw [hactor]
  split
  · rfl
  · exact untimed_accept _ _ _

theorem untimed_execute (context : C) (command : Command) :
    (s.execute context command).untimed = s.untimed.execute context command := by
  cases command with
  | schedule owner event delayMs => rfl
  | cancelTimers owner => rfl
  | invoke owner id src =>
    have hmachine : s.untimed.machine = s.machine := rfl
    dsimp only [execute]
    rw [hmachine]
    split
    · rfl
    · exact untimed_startActor _ _ _ _
  | stopActor id => exact untimed_stopActor s id
  | sendTo actor event => exact untimed_deliver s actor event

theorem untimed_teardown : s.teardown.untimed = s.untimed.teardown :=
  congrArg (fun t : Session C E A => { t with queue := [], status := .stopped })
    (untimed_foldl untimed_stopRunning s.actors.reverse
      { s with timers := s.timers.clear, actors := [] })

theorem untimed_record (step : Macrostep C) :
    (s.record step).untimed = s.untimed.record step := by
  unfold record
  dsimp only
  split
  · unfold untimed
    rw [Journal.untimed_push]
    rfl
  · rfl

theorem untimed_publish (snapshot : Snapshot C) :
    (s.publish snapshot).untimed = s.untimed.publish snapshot :=
  untimed_foldl (fun _ _ => rfl) s.listeners s

/-- A macrostep is taken over whatever the time is. -/
theorem untimed_apply (step : Macrostep C) : (s.apply step).untimed = s.untimed.apply step := by
  have htaken : (((step.commands.foldl (execute step.snapshot.context) s).record step).publish
      step.snapshot).untimed = ((step.commands.foldl (execute step.snapshot.context)
        s.untimed).record step).publish step.snapshot := by
    rw [untimed_publish, untimed_record,
      untimed_foldl fun s command => untimed_execute s step.snapshot.context command]
  unfold Session.apply
  dsimp only
  rw [← htaken]
  split
  · exact untimed_teardown _
  · rfl

theorem untimed_collect : s.collect.untimed = s.untimed.collect :=
  untimed_foldl (fun _ _ => rfl) s.mailbox { s with mailbox := [] }

variable [BEq C]

theorem untimed_handle (snapshot : Snapshot C) (event : Event) :
    (s.handle snapshot event).untimed = s.untimed.handle snapshot event := by
  have hmachine : s.untimed.machine = s.machine := rfl
  unfold handle
  dsimp only
  rw [hmachine]
  have heffects := untimed_noteEffects (s.note (.handled event))
    (s.machine.step snapshot event .live).effects
  split
  · exact congrArg (Turn.failed _) heffects
  · rename_i step _
    exact congrArg Turn.again ((untimed_apply _ step).trans (congrArg (apply · step) heffects))

/-- A turn comes to the same whatever the time is. -/
theorem untimed_turn : s.turn.untimed = s.untimed.turn := by
  unfold turn
  dsimp only
  rw [← untimed_collect]
  have hstatus : s.collect.untimed.status = s.collect.status := rfl
  have hqueue : s.collect.untimed.queue = s.collect.queue := rfl
  have hsnapshot : s.collect.untimed.snapshot = s.collect.snapshot := rfl
  rw [hstatus, hqueue, hsnapshot]
  split
  · rfl
  · split
    · rename_i item rest snapshot _ _
      split
      · rename_i hdropped; exact (if_pos hdropped).symm
      · rename_i hkept; exact (untimed_handle _ _ _).trans (if_neg hkept).symm
    · rfl

/-! ## Calls -/

theorem untimed_drain (fuel : Nat) : ∀ s : Session C E A,
    (s.drain fuel).map Reply.untimed = s.untimed.drain fuel := by
  induction fuel with
  | zero => exact fun _ => rfl
  | succ fuel ih =>
    intro s
    rw [drain, drain, ← untimed_turn]
    cases s.turn with
    | idle t => rfl
    | failed failure t => rfl
    | again t => exact ih t

theorem untimed_fire (limit fuel : Nat) : ∀ s : Session C E A,
    (s.fire limit fuel).map Reply.untimed = s.untimed.fire limit fuel := by
  induction fuel with
  | zero => exact fun _ => rfl
  | succ fuel ih =>
    intro s
    have hstatus : s.untimed.status = s.status := rfl
    have htimers : s.untimed.timers = s.timers := rfl
    rw [fire, fire, hstatus, htimers]
    split
    · rfl
    · split
      · rfl
      · rename_i timer timers _
        let fired : Session C E A :=
          ({ s with timers }.note (.fired timer)).enqueue (.external timer.event)
        have hdrain : (fired.drain fuel).map Reply.untimed = fired.untimed.drain fuel :=
          untimed_drain fuel fired
        change ((fired.drain fuel).bind _).map Reply.untimed = (fired.untimed.drain fuel).bind _
        rw [← hdrain]
        cases fired.drain fuel with
        | none => rfl
        | some reply =>
          obtain ⟨answer, t⟩ := reply
          cases answer with
          | error e => rfl
          | ok _ => exact ih t

/-- Time passes to the same end whatever the time of day is. -/
theorem untimed_advance (fuel ms : Nat) :
    (s.advance fuel ms).map Reply.untimed = s.untimed.advance fuel ms := by
  have hstatus : s.untimed.status = s.status := rfl
  rw [advance, advance, hstatus]
  split
  · rfl
  · change ((s.drain fuel).bind _).map Reply.untimed = (s.untimed.drain fuel).bind _
    rw [← untimed_drain]
    cases s.drain fuel with
    | none => rfl
    | some reply =>
      obtain ⟨answer, t⟩ := reply
      cases answer with
      | error e => rfl
      | ok _ =>
        change ((t.fire (t.timers.now + ms) fuel).bind _).map Reply.untimed =
          (t.untimed.fire (t.timers.now + ms) fuel).bind _
        rw [← untimed_fire]
        cases t.fire (t.timers.now + ms) fuel with
        | none => rfl
        | some last =>
          obtain ⟨answer, u⟩ := last
          cases answer <;> rfl

end Session

end Statechart
