import Mathlib.Data.Option.Defs
import Statechart.Proofs.Session.Strides

/-!
# Sessions of machines that come to the same

A session asks its machine for the start, for what an event comes to, for the end, and for the
actors that are registered. Machines that answer these alike (`Machine.Interchangeable`) cannot be
told apart by any calls: their sessions go the same way, in the same state but for the machine
(`Shadow`), and callers get the same answers.

* `after_eq_reply`: a call with its answer is the call of a run.
* `Shadow.turn`: one turn of the queue.
* `Shadow.reply`: one call, with its answer.
* `replies_of_interchangeable`: any row of calls.
-/
namespace Statechart

variable {C E A : Type}

/-- Machines that answer alike whatever a session asks them for. -/
structure Machine.Interchangeable [BEq C] (m m' : Machine C E A) : Prop where
  startStep : ∀ mode, m'.startStep mode = m.startStep mode
  step : ∀ s event mode, m'.step s event mode = m.step s event mode
  exitStep : ∀ s mode, m'.exitStep s mode = m.exitStep s mode
  registry : m'.registry = m.registry

namespace Session

/-! ## Answers -/

/-- What a caller is told. -/
inductive Answer (C E : Type) where
  | started (answer : Except SessionError (Snapshot C))
  | worked (answer : Except SessionError Unit)
  | subscribed (listener : Nat)
  | unsubscribed (present : Bool)
  | trace (seen : List (Observation C E))
  /-- Nothing. -/
  | silent

section

variable [BEq C]

def reply (fuel : Nat) (s : Session C E A) : Call → Option (Answer C E × Session C E A)
  | .start => (s.start fuel).map fun r => (.started r.answer, r.session)
  | .send event => (s.send fuel event).map fun r => (.worked r.answer, r.session)
  | .flush => (s.flush fuel).map fun r => (.worked r.answer, r.session)
  | .advance ms => (s.advance fuel ms).map fun r => (.worked r.answer, r.session)
  | .stop => some (.worked s.stop.answer, s.stop.session)
  | .post number event => some (.silent, s.post number event)
  | .subscribe => some (.subscribed s.subscribe.1, s.subscribe.2)
  | .unsubscribe listener =>
    let r := s.unsubscribe listener
    some (.unsubscribed r.1, r.2)
  | .takeTrace => some (.trace s.takeTrace.1, s.takeTrace.2)
  | .clock time => some (.silent, { s with time })

/-- What calls answer one after the other, each with its fuel, and the session after them. -/
def replies (s : Session C E A) :
    List (Nat × Call) → Option (List (Answer C E) × Session C E A)
  | [] => some ([], s)
  | (fuel, call) :: rest => do
    let (answer, t) ← s.reply fuel call
    let (answers, u) ← t.replies rest
    return (answer :: answers, u)

theorem after_eq_reply (fuel : Nat) (s : Session C E A) (call : Call) :
    s.after fuel call = (s.reply fuel call).map Prod.snd := by
  cases call <;> simp only [after, reply, Option.map_map, Option.map_some] <;> rfl

end

/-! ## Shadows -/

def withMachine (s : Session C E A) (m : Machine C E A) : Session C E A := { s with machine := m }

/-- A session, and the same session with the other one of two machines. -/
structure Shadow (m m' : Machine C E A) (s s' : Session C E A) : Prop where
  machine : s.machine = m
  eq : s' = s.withMachine m'

/-- Turns that come to the same. -/
inductive Turn.Shadow (m m' : Machine C E A) : Turn C E A → Turn C E A → Prop
  | idle {s s'} (h : Session.Shadow m m' s s') : Shadow m m' (.idle s) (.idle s')
  | again {s s'} (h : Session.Shadow m m' s s') : Shadow m m' (.again s) (.again s')
  | failed {s s'} (failure : Failure) (h : Session.Shadow m m' s s') :
      Shadow m m' (.failed failure s) (.failed failure s')

/-- Replies that come to the same. -/
structure Reply.Shadow {α : Type} (m m' : Machine C E A) (r r' : Reply C E A α) : Prop where
  answer : r'.answer = r.answer
  session : Session.Shadow m m' r.session r'.session

/-- Related options, and related results of each, are related together. -/
theorem rel_bind {α β γ δ : Type} {P : α → β → Prop} {Q : γ → δ → Prop} {x : Option α}
    {y : Option β} {f : α → Option γ} {g : β → Option δ} (h : Option.Rel P x y)
    (hf : ∀ a b, P a b → Option.Rel Q (f a) (g b)) : Option.Rel Q (x >>= f) (y >>= g) := by
  cases h with
  | none => exact .none
  | some hab => exact hf _ _ hab

namespace Shadow

variable {m m' : Machine C E A} {s s' : Session C E A}

theorem foldl {α : Type} {f : Session C E A → α → Session C E A}
    (hf : ∀ {s s'} a, Shadow m m' s s' → Shadow m m' (f s a) (f s' a)) (l : List α)
    (h : Shadow m m' s s') : Shadow m m' (l.foldl f s) (l.foldl f s') :=
  List.foldl_rel h fun a _ _ _ => hf a

theorem map (h : Shadow m m' s s') (f : Session C E A → Session C E A)
    (hf : ∀ s m, f (s.withMachine m) = (f s).withMachine m) : Shadow m m' (f s) (f s') := by
  obtain ⟨rfl, rfl⟩ := h
  -- A session with the machine that it has is itself.
  have hself : (f s).machine = ((f s).withMachine s.machine).machine :=
    congrArg Session.machine (hf s s.machine)
  exact ⟨hself, hf s m'⟩

variable (h : Shadow m m' s s')
include h

theorem status : s'.status = s.status := by rw [h.eq]; rfl

theorem actors : s'.actors = s.actors := by rw [h.eq]; rfl

theorem note (o : Observation C E) : Shadow m m' (s.note o) (s'.note o) :=
  h.map (fun s => s.note o) fun _ _ => rfl

theorem noteEffects (effects : List (String × E)) :
    Shadow m m' (s.noteEffects effects) (s'.noteEffects effects) :=
  foldl (fun e h => h.note (.effect e.1 e.2)) effects h

theorem enqueue (item : Queued) : Shadow m m' (s.enqueue item) (s'.enqueue item) :=
  h.map (fun s => s.enqueue item) fun _ _ => rfl

theorem collect : Shadow m m' s.collect s'.collect := by
  have hmailbox : s'.mailbox = s.mailbox := by rw [h.eq]; rfl
  rw [Session.collect, Session.collect, hmailbox]
  exact foldl (fun e h => h.enqueue (.posted e)) s.mailbox
    (h.map (fun s => { s with mailbox := [] }) fun _ _ => rfl)

/-! ### Actors -/

theorem accept (handle : Handle) (posts : List Event) :
    Shadow m m' (s.accept handle posts) (s'.accept handle posts) := by
  unfold Session.accept
  split
  · exact foldl (fun e h => h.map (fun s => takePost handle s e) fun _ _ => rfl) posts h
  · exact h

theorem actor? (id : String) : s'.actor? id = s.actor? id := by rw [h.eq]; rfl

theorem startActor (context : C) (id : String) (source : ActorSource C A) :
    Shadow m m' (s.startActor context id source) (s'.startActor context id source) := by
  have hstarted : s'.started = s.started := by rw [h.eq]; rfl
  let handle : Handle := { number := s.started, id }
  let r := source.start (source.create context) handle
  have hbegun : Shadow m m' { s with started := s.started + 1 }
      { s' with started := s.started + 1 } :=
    h.map (fun t => { t with started := s.started + 1 }) fun _ _ => rfl
  unfold Session.startActor
  rw [hstarted]
  exact ((hbegun.note (.started handle context)).accept handle r.posts).map
    (fun t => { t with actors := t.actors ++ [⟨handle, source, r.actor⟩] }) fun _ _ => rfl

theorem stopRunning (a : RunningActor C A) : Shadow m m' (s.stopRunning a) (s'.stopRunning a) :=
  (h.note _).accept _ _

theorem stopActor (id : String) : Shadow m m' (s.stopActor id) (s'.stopActor id) := by
  unfold Session.stopActor
  rw [h.actor?]
  split
  · exact h
  · rename_i a _
    exact (h.map (fun t : Session C E A =>
      { t with actors := t.actors.filter fun b => b.handle.number != a.handle.number })
      fun _ _ => rfl).stopRunning a

theorem deliver (id : String) (event : Event) :
    Shadow m m' (s.deliver id event) (s'.deliver id event) := by
  unfold Session.deliver
  rw [h.actor?]
  split
  · exact h
  · rename_i a _
    exact ((h.map (fun t : Session C E A => { t with actors := t.actors.map fun b =>
      if b.handle.number = a.handle.number
        then { b with actor := (a.source.receive a.actor a.handle event).actor } else b })
      fun _ _ => rfl).note _).accept _ _

/-! ### Macrosteps -/

theorem record (step : Macrostep C) : Shadow m m' (s.record step) (s'.record step) := by
  obtain ⟨hm, rfl⟩ := h
  unfold Session.record
  dsimp only
  split
  · exact ⟨hm, rfl⟩
  · exact ⟨hm, rfl⟩

theorem publish (snapshot : Snapshot C) :
    Shadow m m' (s.publish snapshot) (s'.publish snapshot) := by
  have hlisteners : s'.listeners = s.listeners := by rw [h.eq]; rfl
  rw [Session.publish, Session.publish, hlisteners]
  exact foldl (fun l h => h.note (.published l snapshot)) s.listeners h

theorem teardown : Shadow m m' s.teardown s'.teardown := by
  have hcleared : Shadow m m' { s with timers := s.timers.clear, actors := [] }
      { s' with timers := s'.timers.clear, actors := [] } :=
    h.map (fun t => { t with timers := t.timers.clear, actors := [] }) fun _ _ => rfl
  unfold Session.teardown
  rw [h.actors]
  exact (foldl (fun a h => h.stopRunning a) s.actors.reverse hcleared).map
    (fun t => { t with queue := [], status := .stopped }) fun _ _ => rfl

variable [BEq C] (hm : m.Interchangeable m')
include hm

theorem execute (context : C) (command : Command) :
    Shadow m m' (s.execute context command) (s'.execute context command) := by
  cases command with
  | schedule owner event delayMs =>
    exact h.map (fun t => { t with timers := t.timers.schedule owner event delayMs })
      fun _ _ => rfl
  | cancelTimers owner =>
    exact h.map (fun t => { t with timers := t.timers.cancel owner }) fun _ _ => rfl
  | invoke owner id src =>
    have hregistry : s'.machine.registry = s.machine.registry := by
      rw [h.eq, h.machine]; exact hm.registry
    dsimp only [Session.execute]
    rw [hregistry]
    split
    · exact h
    · exact h.startActor _ _ _
  | stopActor id => exact h.stopActor id
  | sendTo actor event => exact h.deliver actor event

theorem apply (step : Macrostep C) : Shadow m m' (s.apply step) (s'.apply step) := by
  have htaken := (((foldl (fun command h => h.execute hm step.snapshot.context command)
    step.commands h).record step).publish step.snapshot).map
      (fun t => { t with snapshot := some step.snapshot }) fun _ _ => rfl
  unfold Session.apply
  dsimp only
  split
  · exact htaken.teardown
  · exact htaken

theorem handle (snapshot : Snapshot C) (event : Event) :
    Turn.Shadow m m' (s.handle snapshot event) (s'.handle snapshot event) := by
  have hstep : s'.machine.step snapshot event .live = s.machine.step snapshot event .live := by
    rw [h.eq, h.machine]; exact hm.step snapshot event .live
  have heffects := (h.note (.handled event)).noteEffects
    (s.machine.step snapshot event .live).effects
  unfold Session.handle
  dsimp only
  rw [hstep]
  split
  · exact .failed _ heffects
  · exact .again (heffects.apply hm _)

/-- A turn comes to the same. -/
theorem turn : Turn.Shadow m m' s.turn s'.turn := by
  have hcollect := h.collect
  unfold Session.turn
  generalize s.collect = t, s'.collect = t' at hcollect
  obtain ⟨ht, rfl⟩ := hcollect
  dsimp only [withMachine]
  split
  · exact .idle ⟨ht, rfl⟩
  · split
    · rename_i item rest snapshot _ _
      let u : Session C E A := { t with queue := rest }
      have hrest : Shadow m m' u (u.withMachine m') := ⟨ht, rfl⟩
      change Turn.Shadow m m'
        (if u.drops item then .again (u.note (.dropped item)) else u.handle snapshot item.event)
        (if u.drops item then .again ((u.withMachine m').note (.dropped item))
          else (u.withMachine m').handle snapshot item.event)
      split
      · exact .again (hrest.note _)
      · exact hrest.handle hm snapshot item.event
    · exact .idle ⟨ht, rfl⟩

/-! ### Calls -/

omit h in
theorem drain (fuel : Nat) : ∀ {s s' : Session C E A}, Shadow m m' s s' →
    Option.Rel (Reply.Shadow m m') (s.drain fuel) (s'.drain fuel) := by
  induction fuel with
  | zero => exact fun _ => .none
  | succ fuel ih =>
    intro s s' h
    rw [Session.drain, Session.drain]
    generalize ht : s.turn = a, ht' : s'.turn = a'
    have hturn := h.turn hm
    rw [ht, ht'] at hturn
    cases hturn with
    | idle h => exact .some ⟨rfl, h⟩
    | failed failure h => exact .some ⟨rfl, h⟩
    | again h => exact ih h

omit h in
theorem fire (limit fuel : Nat) : ∀ {s s' : Session C E A}, Shadow m m' s s' →
    Option.Rel (Reply.Shadow m m') (s.fire limit fuel) (s'.fire limit fuel) := by
  induction fuel with
  | zero => exact fun _ => .none
  | succ fuel ih =>
    intro s s' h
    have htimers : s'.timers = s.timers := by rw [h.eq]; rfl
    rw [Session.fire, Session.fire, h.status, htimers]
    split
    · exact .some ⟨rfl, h⟩
    · split
      · exact .some ⟨rfl, h⟩
      · rename_i timer timers _
        refine rel_bind (drain hm fuel ⟨h.machine, by rw [h.eq]; rfl⟩) fun r r' hr => ?_
        rw [hr.answer]
        split
        · exact .some ⟨rfl, hr.session⟩
        · exact ih hr.session

theorem advance (fuel ms : Nat) :
    Option.Rel (Reply.Shadow m m') (s.advance fuel ms) (s'.advance fuel ms) := by
  rw [Session.advance, Session.advance, h.status]
  split
  · exact .some ⟨rfl, h⟩
  · refine rel_bind (drain hm fuel h) fun r r' hr => ?_
    have hnow : r'.session.timers.now = r.session.timers.now := by rw [hr.session.eq]; rfl
    rw [hr.answer, hnow]
    split
    · exact .some ⟨rfl, hr.session⟩
    · refine rel_bind (fire hm _ fuel hr.session) fun q q' hq => ?_
      rw [hq.answer]
      split
      · exact .some ⟨rfl, hq.session⟩
      · exact .some ⟨rfl, hq.session.map
          (fun t => { t with timers := t.timers.advanceTo (r.session.timers.now + ms) })
          fun _ _ => rfl⟩

omit [BEq C] hm in
theorem current : Reply.Shadow m m' s.current s'.current := by
  obtain ⟨ht, rfl⟩ := h
  unfold Session.current
  dsimp only [withMachine]
  split
  · exact ⟨rfl, ht, rfl⟩
  · exact ⟨rfl, ht, rfl⟩

theorem start (fuel : Nat) : Option.Rel (Reply.Shadow m m') (s.start fuel) (s'.start fuel) := by
  have hname : s'.name = s.name := by rw [h.eq]; rfl
  have hstep : s'.machine.startStep .live = s.machine.startStep .live := by
    rw [h.eq, h.machine]; exact hm.startStep .live
  rw [Session.start, Session.start, h.status, hname, hstep]
  split
  · exact .some ⟨rfl, h⟩
  · exact .some h.current
  · have heffects := h.noteEffects (s.machine.startStep .live).effects
    dsimp only
    split
    · exact .some ⟨rfl, heffects⟩
    · rename_i step _
      have hrunning :=
        (heffects.map (fun t => { t with status := .running }) fun _ _ => rfl).apply hm step
      refine rel_bind (drain hm fuel hrunning) fun r r' hr => .some ?_
      rw [hr.answer]
      split
      · exact ⟨rfl, hr.session⟩
      · exact hr.session.current

theorem send (fuel : Nat) (event : Event) :
    Option.Rel (Reply.Shadow m m') (s.send fuel event) (s'.send fuel event) := by
  have hsent := (h.note (.sent event)).enqueue (.external event)
  rw [Session.send, Session.send, h.status]
  split
  · exact .some ⟨rfl, h⟩
  · exact .some ⟨rfl, hsent⟩
  · exact drain hm fuel hsent

theorem flush (fuel : Nat) : Option.Rel (Reply.Shadow m m') (s.flush fuel) (s'.flush fuel) := by
  rw [Session.flush, Session.flush, h.status]
  split
  · exact drain hm fuel h
  · exact .some ⟨rfl, h⟩

theorem stop : Reply.Shadow m m' s.stop s'.stop := by
  have hsnapshot : s'.snapshot = s.snapshot := by rw [h.eq]; rfl
  rw [Session.stop, Session.stop, h.status, hsnapshot]
  split
  · exact ⟨rfl, h⟩
  · exact ⟨rfl, h.machine, by rw [h.eq]; rfl⟩
  · exact ⟨rfl, h.teardown⟩
  · rename_i snapshot _ _
    have hstep : s'.machine.exitStep snapshot .live = s.machine.exitStep snapshot .live := by
      rw [h.eq, h.machine]; exact hm.exitStep snapshot .live
    have hdown := (h.noteEffects (s.machine.exitStep snapshot .live).effects).teardown
    rw [hstep]
    dsimp only
    split
    · exact ⟨rfl, hdown⟩
    · exact ⟨rfl, hdown⟩

omit [BEq C] hm in
theorem post (number : Nat) (event : Event) :
    Shadow m m' (s.post number event) (s'.post number event) := by
  unfold Session.post
  rw [h.actors]
  split
  · exact h
  · exact h.accept _ _

/-- A call answers the same, and comes to the same. -/
theorem reply (fuel : Nat) (call : Call) :
    Option.Rel (fun r r' => r'.1 = r.1 ∧ Shadow m m' r.2 r'.2) (s.reply fuel call)
      (s'.reply fuel call) := by
  have hanswer : ∀ {α : Type} {x x' : Option (Reply C E A α)}
      (f : Except SessionError α → Answer C E), Option.Rel (Reply.Shadow m m') x x' →
      Option.Rel (fun r r' => r'.1 = r.1 ∧ Shadow m m' r.2 r'.2)
        (x.map fun r => (f r.answer, r.session)) (x'.map fun r => (f r.answer, r.session)) := by
    intro α x x' f hx
    cases hx with
    | none => exact .none
    | some hr => exact .some ⟨congrArg f hr.answer, hr.session⟩
  cases call with
  | start => exact hanswer .started (h.start hm fuel)
  | send event => exact hanswer .worked (h.send hm fuel event)
  | flush => exact hanswer .worked (h.flush hm fuel)
  | advance ms => exact hanswer .worked (h.advance hm fuel ms)
  | stop => exact hanswer .worked (.some (h.stop hm))
  | post number event => exact .some ⟨rfl, h.post number event⟩
  | subscribe => exact .some ⟨by rw [h.eq]; rfl, h.machine, by rw [h.eq]; rfl⟩
  | unsubscribe listener => exact .some ⟨by rw [h.eq]; rfl, h.machine, by rw [h.eq]; rfl⟩
  | takeTrace => exact .some ⟨by rw [h.eq]; rfl, h.machine, by rw [h.eq]; rfl⟩
  | clock time => exact .some ⟨rfl, h.machine, by rw [h.eq]; rfl⟩

omit h in
/-- Calls one after the other answer the same, and come to the same. -/
theorem replies : ∀ (calls : List (Nat × Call)) {s s' : Session C E A}, Shadow m m' s s' →
    Option.Rel (fun r r' => r'.1 = r.1 ∧ Shadow m m' r.2 r'.2) (s.replies calls) (s'.replies calls)
  | [], s, s', h => .some ⟨rfl, h⟩
  | (fuel, call) :: rest, s, s', h => by
    rw [Session.replies, Session.replies]
    refine rel_bind (h.reply hm fuel call) fun a a' ha => ?_
    exact rel_bind (replies rest ha.2) fun b b' hb => .some ⟨by rw [ha.1, hb.1], hb.2⟩

end Shadow

/-- Machines that come to the same cannot be told apart. -/
theorem replies_of_interchangeable [BEq C] {m m' : Machine C E A} (hm : m.Interchangeable m')
    (name : String) (journalLimit : Option Nat) (calls : List (Nat × Call)) :
    (ofMachine m' name journalLimit).replies calls =
      ((ofMachine m name journalLimit).replies calls).map fun r => (r.1, r.2.withMachine m') := by
  have hshadow : Shadow m m' (ofMachine m name journalLimit) (ofMachine m' name journalLimit) :=
    ⟨rfl, rfl⟩
  have hreplies := Shadow.replies hm calls hshadow
  generalize (ofMachine m name journalLimit).replies calls = x,
    (ofMachine m' name journalLimit).replies calls = x' at hreplies
  cases hreplies with
  | none => rfl
  | @some r r' h => exact congrArg some (Prod.ext h.1 h.2.eq)

end Session

end Statechart
