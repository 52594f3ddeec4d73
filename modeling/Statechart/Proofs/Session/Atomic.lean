import Statechart.Proofs.Session.Resumed
import Statechart.Proofs.Session.Turns
import Statechart.Proofs.Timers

/-!
# A macrostep that fails is atomic

A call that fails has worked off events until the macrostep of one of them failed. Between the
last macrostep that succeeded and that one, posts were dropped and at most one timer fired: every
timer that fires is followed by the macrostep of its event. So all that can be seen of the session
is as the last macrostep left it, the event that failed is gone, and what waited behind it waits.

* `failure?_fails`: a call that fails has come to a macrostep that fails.
* `Run.latest`: how a call has come to a point from the last macrostep that succeeded.
* `Run.spared`: what a macrostep that fails leaves.
* `Run.atomic`: this, and the next call takes up what waits.
-/
namespace Statechart

/-- The failure that a call comes to, and the session after it. -/
def Reply.failure? {C E A α : Type} (r : Reply C E A α) : Option (Failure × Session C E A) :=
  match r.answer with
  | .error (.execution failure) => some (failure, r.session)
  | _ => none

/-- What is left of timers of which one may have fired, at the time it was due. -/
def Timers.less (t : Timers) : Option Timer → Timers
  | none => t
  | some x => { t with pending := t.pending.erase x, now := max t.now x.due }

namespace Session

variable {C E A : Type} {s t u : Session C E A}

section

variable [BEq C]

/-! ## Calls that fail -/

open Point

/-- The failure of a call that works off the queue, and the session after it, if a macrostep
fails. -/
def failure? (fuel : Nat) (s : Session C E A) : Call → Option (Failure × Session C E A)
  | .send event => (s.send fuel event).bind Reply.failure?
  | .flush => (s.flush fuel).bind Reply.failure?
  | .advance ms => (s.advance fuel ms).bind Reply.failure?
  | _ => none

/-- From a point a call comes to a turn in which a macrostep fails. -/
def Fails (p : Point C E A) (failure : Failure) (t : Session C E A) : Prop :=
  ∃ tasks u, p.Reaches ⟨.drain :: tasks, u⟩ ∧ u.turn = .failed failure t

theorem Fails.head {p q : Point C E A} {failure : Failure} (h : p.Reaches q)
    (hq : Fails q failure t) : Fails p failure t := by
  obtain ⟨tasks, u, hu, hturn⟩ := hq
  exact ⟨tasks, u, h.trans hu, hturn⟩

section

variable {failure : Failure} {r : Reply C E A Unit} {rest : List Task}

omit [BEq C] in
theorem failure?_eq_some {α : Type} {reply : Option (Reply C E A α)}
    (h : reply.bind Reply.failure? = some (failure, t)) :
    ∃ r, reply = some r ∧ r.answer = .error (.execution failure) ∧ r.session = t := by
  obtain ⟨r, hr, h⟩ := Option.bind_eq_some_iff.mp h
  unfold Reply.failure? at h
  split at h
  · rename_i hanswer
    cases h
    exact ⟨r, hr, hanswer, rfl⟩
  · cases h

theorem drain_fails : ∀ {fuel : Nat} {s : Session C E A}, s.drain fuel = some r →
    r.answer = .error (.execution failure) → Fails ⟨.drain :: rest, s⟩ failure r.session := by
  intro fuel
  induction fuel with
  | zero => intro s h; cases h
  | succ fuel ih =>
    intro s h hanswer
    rw [drain] at h
    cases ht : s.turn with
    | idle t => rw [ht] at h; cases h; cases hanswer
    | failed failure t =>
      rw [ht] at h
      cases h
      cases hanswer
      exact ⟨rest, s, .refl, ht⟩
    | again t => rw [ht] at h; exact (ih h hanswer).head (.single (.again ht))

theorem fire_fails {limit : Nat} : ∀ {fuel : Nat} {s : Session C E A},
    s.fire limit fuel = some r → r.answer = .error (.execution failure) →
    Fails ⟨.fire limit :: rest, s⟩ failure r.session := by
  intro fuel
  induction fuel with
  | zero => intro s h; cases h
  | succ fuel ih =>
    intro s h hanswer
    rw [fire] at h
    split at h
    · cases h; cases hanswer
    · rename_i hs
      split at h
      · cases h; cases hanswer
      · rename_i timer timers ht
        simp only [Option.bind_eq_bind, Option.bind_eq_some_iff] at h
        obtain ⟨reply, hd, h⟩ := h
        have hfired : Reaches ⟨.fire limit :: rest, s⟩
            ⟨.drain :: .fire limit :: rest, s.fired timer timers⟩ :=
          .single (.fired (Decidable.not_not.mp hs) ht)
        cases ha : reply.answer with
        | error e =>
          rw [ha] at h
          cases h
          exact (drain_fails (r := reply) hd (ha.trans hanswer)).head hfired
        | ok _ =>
          rw [ha] at h
          have hdrained := drain_reaches (.fire limit :: rest) hd
          simp only [onward, ha] at hdrained
          exact (ih h hanswer).head (hfired.trans hdrained)

theorem advance_fails {fuel ms : Nat} (hs : s.status = .running)
    (h : s.advance fuel ms = some r) (hanswer : r.answer = .error (.execution failure)) :
    Fails (s.begun (.advance ms)) failure r.session := by
  unfold advance at h
  rw [if_neg (not_not.mpr hs)] at h
  simp only [begun, if_pos hs]
  simp only [Option.bind_eq_bind, Option.bind_eq_some_iff] at h
  obtain ⟨reply, hd, h⟩ := h
  cases ha : reply.answer with
  | error e =>
    rw [ha] at h
    cases h
    exact drain_fails (r := reply) hd (ha.trans hanswer)
  | ok _ =>
    simp only [ha, Option.bind_eq_some_iff] at h
    obtain ⟨last, hf, h⟩ := h
    have hdrained := drain_reaches [.pass ms] hd
    simp only [onward, ha] at hdrained
    cases hb : last.answer with
    | error e =>
      rw [hb] at h
      cases h
      exact (fire_fails hf (hb.trans hanswer)).head (hdrained.tail .pass)
    | ok _ =>
      rw [hb] at h
      cases h
      cases hanswer

/-- A call that fails has come to a macrostep that fails. -/
theorem failure?_fails {fuel : Nat} {call : Call} (hs : s.status = .running)
    (h : s.failure? fuel call = some (failure, t)) : Fails (s.begun call) failure t := by
  cases call with
  | send event =>
    obtain ⟨r, hr, hanswer, rfl⟩ := failure?_eq_some h
    simp only [send, hs] at hr
    simp only [begun, upon, hs]
    exact drain_fails hr hanswer
  | flush =>
    obtain ⟨r, hr, hanswer, rfl⟩ := failure?_eq_some h
    rw [flush, if_pos hs] at hr
    simp only [begun, if_pos hs]
    exact drain_fails hr hanswer
  | advance ms =>
    obtain ⟨r, hr, hanswer, rfl⟩ := failure?_eq_some h
    exact advance_fails hs hr hanswer
  | _ => cases h

theorem failure?_after {fuel : Nat} {call : Call} (h : s.failure? fuel call = some (failure, t)) :
    call.works = true ∧ s.after fuel call = some t := by
  cases call with
  | send event =>
    obtain ⟨r, hr, -, rfl⟩ := failure?_eq_some h
    exact ⟨rfl, by rw [after, hr]; rfl⟩
  | flush =>
    obtain ⟨r, hr, -, rfl⟩ := failure?_eq_some h
    exact ⟨rfl, by rw [after, hr]; rfl⟩
  | advance ms =>
    obtain ⟨r, hr, -, rfl⟩ := failure?_eq_some h
    exact ⟨rfl, by rw [after, hr]; rfl⟩
  | _ => cases h

/-- What a call does first to a session that runs: it puts in the queue what it sends. -/
structure Opens (s : Session C E A) (call : Call) (t : Session C E A) : Prop where
  alike : Alike s t
  timers : t.timers = s.timers
  queue : t.queue = s.queue ++ call.sent?.toList.map .external
  mailbox : t.mailbox = s.mailbox

theorem opens_begun {call : Call} (hs : s.status = .running) (hw : call.works = true) :
    Opens s call (s.begun call).session := by
  cases call with
  | send event =>
    simp only [begun, upon, hs]
    exact ⟨(Alike.note s fun _ => rfl).trans (.enqueue _ _), rfl, rfl, rfl⟩
  | flush => simp only [begun, if_pos hs]; exact ⟨.refl s, rfl, (List.append_nil _).symm, rfl⟩
  | advance ms => simp only [begun, if_pos hs]; exact ⟨.refl s, rfl, (List.append_nil _).symm, rfl⟩
  | _ => cases hw

end

/-! ## The last macrostep that succeeded -/

/-- A step in which the next event is given to the machine, and its macrostep succeeds. -/
structure Point.Succeeds (p q : Point C E A) : Prop where
  next : p.Next q
  gives : ∃ item rest step, Gives p.session item rest (.ok step) ∧
    ∃ tasks, p.tasks = .drain :: tasks

/-- A step in which no macrostep succeeds. -/
def Point.Lull (p q : Point C E A) : Prop := p.Next q ∧ ¬p.Succeeds q

/-- `last` is the session after the last macrostep of a call that has succeeded before a point, or
that at the beginning of the call if none has. -/
inductive Latest (s : Session C E A) (call : Call) (p : Point C E A) : Session C E A → Prop
  | begun (h : Relation.ReflTransGen Lull (s.begun call) p) : Latest s call p (s.begun call).session
  | succeeded {a b : Point C E A} (ha : (s.begun call).Reaches a) (hb : a.Succeeds b)
      (h : Relation.ReflTransGen Lull b p) : Latest s call p b.session

theorem Latest.tail {call : Call} {p q : Point C E A} {last : Session C E A}
    (h : Latest s call p last) (hq : p.Lull q) : Latest s call q last := by
  cases h with
  | begun h => exact .begun (h.tail hq)
  | succeeded ha hb h => exact .succeeded ha hb (h.tail hq)

end

/-! ## Between two macrosteps -/

/-- Only the last task of a call is another one than working off the queue. -/
def Arranged (tasks : List Task) : Prop := ∀ task ∈ tasks.dropLast, task = .drain

theorem Arranged.nil : Arranged [] := List.forall_mem_nil _

theorem Arranged.single (task : Task) : Arranged [task] := List.forall_mem_nil _

theorem Arranged.tail {task : Task} {rest : List Task} (h : Arranged (task :: rest)) :
    Arranged rest := by
  cases rest with
  | nil => exact .nil
  | cons => exact fun task htask => h task (List.mem_cons_of_mem _ htask)

theorem Arranged.eq_nil {task : Task} {rest : List Task} (h : Arranged (task :: rest))
    (ht : task ≠ .drain) : rest = [] := by
  cases rest with
  | nil => rfl
  | cons => exact absurd (h task List.mem_cons_self) ht

section

variable [BEq C]

open Point

theorem arranged_begun (s : Session C E A) (call : Call) : Arranged (s.begun call).tasks := by
  cases call with
  | start =>
    simp only [begun]
    split
    · split
      · exact .nil
      · exact .single _
    · exact .nil
  | send event =>
    simp only [begun]
    split
    · exact .single _
    · exact .nil
  | flush =>
    simp only [begun]
    split
    · exact .single _
    · exact .nil
  | advance ms =>
    simp only [begun]
    split
    · exact fun task htask => List.mem_singleton.mp htask
    · exact .nil
  | _ => exact .nil

theorem Arranged.next {p q : Point C E A} (h : Arranged p.tasks) (hn : p.Next q) :
    Arranged q.tasks := by
  cases hn with
  | idle _ => exact h.tail
  | again _ => exact h
  | failed _ => exact .nil
  | pass =>
    obtain rfl := h.eq_nil (by simp)
    exact .single _
  | fired _ _ =>
    obtain rfl := h.eq_nil (by simp)
    exact fun task htask => List.mem_singleton.mp htask
  | waited _ => exact h.tail

theorem arranged_of_reaches {call : Call} {p : Point C E A} (h : (s.begun call).Reaches p) :
    Arranged p.tasks := by
  induction h with
  | refl => exact arranged_begun s call
  | tail _ hn ih => exact ih.next hn

end

/-- How a call has come from `last` to a point without a macrostep that succeeded: posts were
dropped, and a timer may have fired. If one has, its event is the next and the only one. -/
structure Lulled (last : Session C E A) (fired : Option Timer) (p : Point C E A) : Prop where
  alike : Alike last p.session
  timers : p.session.timers = last.timers.less fired
  waiting : ∃ dropped, (∀ item ∈ dropped, last.drops item = true) ∧
    last.waiting ++ fired.toList.map (fun x => .external x.event) = dropped ++ p.session.waiting
  alone : ∀ x, fired = some x → x ∈ last.timers.pending ∧ p.session.status = .running ∧
    (∃ rest, p.tasks = .drain :: rest) ∧ p.session.waiting = [.external x.event]

theorem waiting_fired (h : Settled s) (timer : Timer) (timers : Timers) :
    (s.fired timer timers).waiting = [.external timer.event] := by
  have hmailbox : (s.fired timer timers).mailbox = [] := h.mailbox
  have hqueue : (s.fired timer timers).queue = s.queue ++ [.external timer.event] := rfl
  rw [waiting, hmailbox, hqueue, h.queue]
  rfl

namespace Lulled

variable {last : Session C E A} {fired : Option Timer} {p q : Point C E A}

theorem refl (p : Point C E A) : Lulled p.session none p where
  alike := .refl _
  timers := rfl
  waiting := ⟨[], nofun, List.append_nil _⟩
  alone := nofun

/-- No timer has fired if another task is next than working off the queue. -/
theorem eq_none {task : Task} {rest : List Task} (h : Lulled last fired p)
    (hp : p.tasks = task :: rest) (ht : task ≠ .drain) : fired = none := by
  cases hf : fired with
  | none => rfl
  | some x =>
    obtain ⟨-, -, ⟨more, hdrain⟩, -⟩ := h.alone x hf
    exact absurd (List.cons.inj (hp.symm.trans hdrain)).1 ht

theorem of_none (h : Lulled last none p) (ha : Alike p.session q.session)
    (ht : q.session.timers = p.session.timers) (dropped : List Queued)
    (hd : ∀ item ∈ dropped, p.session.drops item = true)
    (hw : p.session.waiting = dropped ++ q.session.waiting) : Lulled last none q where
  alike := h.alike.trans ha
  timers := ht.trans h.timers
  waiting := by
    obtain ⟨before, hbefore, heq⟩ := h.waiting
    refine ⟨before ++ dropped, fun item hitem => ?_, by rw [heq, hw, List.append_assoc]⟩
    rcases List.mem_append.mp hitem with hitem | hitem
    · exact hbefore item hitem
    · exact h.alike.drops item ▸ hd item hitem
  alone := nofun

theorem fire {limit : Nat} {rest : List Task} {timer : Timer} {timers : Timers}
    (h : Lulled last none ⟨.fire limit :: rest, s⟩) (hs : s.status = .running) (hset : Settled s)
    (ht : s.timers.take? limit = some (timer, timers)) :
    Lulled last (some timer) ⟨.drain :: .fire limit :: rest, s.fired timer timers⟩ := by
  obtain ⟨hmem, -, -, rfl⟩ := Timers.take?_spec ht
  have htimers : s.timers = last.timers := h.timers
  have hnone : s.waiting = [] := by simp [Session.waiting, hset.queue, hset.mailbox]
  refine ⟨?_, by rw [← htimers]; rfl, ?_, ?_⟩
  · exact h.alike.trans (((Alike.keep s s.queue s.mailbox _).trans (.note _ fun _ => rfl)).trans
      (.enqueue _ _))
  · obtain ⟨dropped, hdropped, heq⟩ := h.waiting
    refine ⟨dropped, hdropped, ?_⟩
    rw [waiting_fired hset timer _]
    dsimp only at heq
    rw [hnone] at heq
    simpa using heq
  · intro x hx
    cases hx
    exact ⟨htimers ▸ hmem, hs, ⟨_, rfl⟩, waiting_fired hset timer _⟩

theorem next [BEq C] (hc : Current p.session) (hready : Ready p) (harranged : Arranged p.tasks)
    (h : Lulled last fired p) (hl : p.Lull q) (hq : q.tasks ≠ []) :
    ∃ fired, Lulled last fired q := by
  obtain ⟨hn, hnot⟩ := hl
  cases hn with
  | @idle s t rest ht =>
    have hturned := turned s
    rw [ht] at hturned
    cases hturned with
    | idle hidle =>
      cases hf : fired with
      | none =>
        subst hf
        exact ⟨none, h.of_none (.collect s) (by rw [collect_eq]) [] nofun
          (waiting_collect s).symm⟩
      | some x =>
        -- The event of the timer waits, so there is something to do.
        obtain ⟨-, hs, -, hw⟩ := h.alone x hf
        obtain ⟨snapshot, hsnapshot⟩ := Option.isSome_iff_exists.mp (hc hs)
        rcases hidle hs with hnil | hnil
        · rw [hw] at hnil; cases hnil
        · rw [hsnapshot] at hnil; cases hnil
  | @again s t rest ht =>
    have hturned := turned s
    rw [ht] at hturned
    cases hturned with
    | @dropped item more _ hw hd hpassed =>
      cases hf : fired with
      | none =>
        subst hf
        refine ⟨none, h.of_none hpassed.alike hpassed.timers [item] (fun d hd' => ?_) ?_⟩
        · rw [List.mem_singleton.mp hd']; exact hd
        · rw [hpassed.waiting]; exact hw
      | some x =>
        -- The event of the timer is not a post.
        obtain ⟨-, -, -, hx⟩ := h.alone x hf
        obtain ⟨rfl, -⟩ := List.cons.inj (hw.symm.trans hx)
        cases hd
    | @succeeded item more step _ hg =>
      exact absurd ⟨.again ht, item, more, step, hg, rest, rfl⟩ hnot
  | failed _ => exact absurd rfl hq
  | pass =>
    obtain rfl := h.eq_none rfl (by simp)
    exact ⟨none, h.of_none (.refl _) rfl [] nofun rfl⟩
  | fired hs ht =>
    obtain rfl := h.eq_none rfl (by simp)
    exact ⟨_, h.fire hs (hready _ _ rfl (by simp) hs) ht⟩
  | waited _ => exact absurd (harranged.eq_nil (by simp)) hq

end Lulled

/-! ## Where a call has failed -/

variable [BEq C] {m : Machine C E A} {calls : List Call} {call : Call}

open Point

/-- At every point of a call, it has come there from the last macrostep that succeeded. -/
theorem Run.latest (h : Run m calls s) {p : Point C E A} (hp : (s.begun call).Reaches p) :
    ∃ last, Latest s call p last ∧ (p.tasks ≠ [] → ∃ fired, Lulled last fired p) := by
  induction hp with
  | refl => exact ⟨_, .begun .refl, fun _ => ⟨none, .refl _⟩⟩
  | @tail p q hp hn ih =>
    obtain ⟨last, hlatest, hlulled⟩ := ih
    by_cases hs : p.Succeeds q
    · exact ⟨q.session, .succeeded hp hs .refl, fun _ => ⟨none, .refl q⟩⟩
    · refine ⟨last, hlatest.tail ⟨hn, hs⟩, fun hq => ?_⟩
      have htasks : p.tasks ≠ [] := by cases hn <;> simp
      obtain ⟨fired, hl⟩ := hlulled htasks
      exact hl.next (h.during hp).current (h.ready hp) (arranged_of_reaches hp) ⟨hn, hs⟩ hq

/-- What a macrostep that fails leaves of the session after the one before: all is as it was there,
but for what was dropped, a timer that has fired, and the event that failed. -/
structure Spared (last : Session C E A) (failure : Failure) (fired : Option Timer)
    (dropped : List Queued) (item : Queued) (r : Session C E A) : Prop where
  alike : Alike last r
  running : r.status = .running
  /-- The event was given to the machine, and failed. -/
  failed : last.drops item = false ∧ ∃ snapshot, last.snapshot = some snapshot ∧
    (last.machine.step snapshot item.event .live).result = .error failure
  /-- The timers are the same, without the one whose event failed if it is that of a timer. -/
  timers : r.timers = last.timers.less fired
  timer : ∀ x, fired = some x → x ∈ last.timers.pending ∧ item = .external x.event
  /-- What waited before the event was dropped, and what waited behind it still waits. -/
  queue : last.waiting ++ fired.toList.map (fun x => .external x.event) = dropped ++ item :: r.queue
  dropped : ∀ d ∈ dropped, last.drops d = true
  mailbox : r.mailbox = []

/-- A macrostep that fails leaves all as the last one that succeeded has left it. -/
theorem Run.spared (h : Run m calls s) (hs : s.status = .running) {fuel : Nat} {failure : Failure}
    {r : Session C E A} (hfail : s.failure? fuel call = some (failure, r)) :
    ∃ last fired dropped item, Latest s call ⟨[], r⟩ last ∧
      Spared last failure fired dropped item r := by
  obtain ⟨tasks, u, hreach, hturn⟩ := failure?_fails hs hfail
  obtain ⟨last, hlatest, hlulled⟩ := h.latest hreach
  obtain ⟨fired, hlulled⟩ := hlulled (by simp)
  have hturned := turned u
  rw [hturn] at hturned
  cases hturned with
  | @failed item rest _ _ hg hpassed =>
    have hlull : Lull ⟨.drain :: tasks, u⟩ ⟨[], r⟩ := by
      refine ⟨.failed hturn, fun hsucceeds => ?_⟩
      obtain ⟨_, _, _, hg', -⟩ := hsucceeds.gives
      exact nomatch hg.unique hg'
    obtain ⟨dropped, hdropped, hwaiting⟩ := hlulled.waiting
    obtain ⟨snapshot, hsnapshot, hresult⟩ := hg.result
    have halike := hlulled.alike
    refine ⟨last, fired, dropped, item, hlatest.tail hlull, ?_⟩
    exact {
      alike := halike.trans hpassed.alike
      running := hpassed.alike.status.trans hg.status
      failed := ⟨halike.drops item ▸ hg.kept, snapshot, halike.snapshot ▸ hsnapshot,
        halike.machine ▸ hresult⟩
      timers := hpassed.timers.trans hlulled.timers
      timer := fun x hx => by
        obtain ⟨hmem, -, -, hx⟩ := hlulled.alone x hx
        exact ⟨hmem, (List.cons.inj (hg.waiting.symm.trans hx)).1⟩
      queue := by
        rw [hpassed.queue, ← hg.waiting]
        exact hwaiting
      dropped := hdropped
      mailbox := hpassed.mailbox }

/-- What is so of a call that fails, where `r` is the session after it. -/
structure Atomic (s : Session C E A) (call : Call) (failure : Failure) (r : Session C E A) :
    Prop where
  begun : Opens s call (s.begun call).session
  /-- All is as after the last macrostep of the call that succeeded, or as at the beginning of
  the call if none has. -/
  spared : ∃ last fired dropped item, Latest s call ⟨[], r⟩ last ∧
    Spared last failure fired dropped item r
  /-- What waited behind the event that failed is taken up by the next call that works off the
  queue, whatever other calls come before. -/
  resumes : ∀ pauses next fuel u t, (∀ c ∈ pauses, c.pauses = true) → next.works = true →
    r.afterAll fuel pauses = some u → u.after fuel next = some t →
    ∃ new worked left, Resumed r t new worked left ∧
      (u.worksOff fuel next = some t → t.status = .running → left = [])

/-- A macrostep that fails is atomic. -/
theorem Run.atomic (h : Run m calls s) (kept : .takeTrace ∉ calls) (hs : s.status = .running)
    {fuel : Nat} {failure : Failure} {r : Session C E A}
    (hfail : s.failure? fuel call = some (failure, r)) : Atomic s call failure r := by
  obtain ⟨hworks, hafter⟩ := failure?_after hfail
  have hspared := h.spared hs hfail
  have hrunning : r.status = .running := by
    obtain ⟨_, _, _, _, -, hr⟩ := hspared
    exact hr.running
  have hkept : .takeTrace ∉ calls ++ [call] := by
    rw [List.mem_append, List.mem_singleton]
    rintro (hmem | rfl)
    · exact kept hmem
    · cases hworks
  exact ⟨opens_begun hs hworks, hspared, fun pauses next fuel u t hp hw hu ht =>
    (h.call hafter).resumes hkept hrunning hp hw hu ht⟩

/-- A printer prints one sheet at a time, as long as it has paper. -/
def printer : Definition := {
  key := "printer"
  initial := some "ready"
  states := [
    { key := "ready"
      on := [⟨"PRINT", [{ actions := [.named "print"] }]⟩,
        ⟨"REFILL", [{ actions := [.named "refill"] }]⟩] }] }

/-- The tray takes two sheets. -/
def trays : Registry Nat Unit Unit where
  actions := [
    ("print", .assign fun sheets _ => if sheets = 0 then .error "no paper" else .ok (sheets - 1)),
    ("refill", .assign fun _ _ => .ok 2)]

def printerMachine : Machine Nat Unit Unit := Machine.buildD trays 1 10 printer

/-- There is one sheet, so the second print fails when the printer is started. -/
def printed : List Call :=
  [.send { type := "PRINT" }, .send { type := "PRINT" }, .send { type := "REFILL" },
    .send { type := "PRINT" }, .send { type := "PRINT" }, .send { type := "PRINT" },
    .send { type := "REFILL" }, .start]

/-- Of what waits, the next call prints two sheets and fails at the third, so the second refill
and what the call sends wait on. -/
theorem atomic_printer : ∃ s failure r, Run printerMachine printed s ∧ .takeTrace ∉ printed ∧
    s.status = .running ∧ s.failure? 9 (.send { type := "PRINT" }) = some (failure, r) ∧
    r.snapshot.map (·.context) = some 0 ∧
    r.queue.map (·.event.type) = ["REFILL", "PRINT"] ∧
    Atomic s (.send { type := "PRINT" }) failure r := by
  have hrun : ((ofMachine printerMachine "printer" none).afterAll 9 printed).any (fun s =>
      s.status = .running ∧ (s.failure? 9 (.send { type := "PRINT" })).any fun x =>
        x.2.snapshot.map (·.context) = some 0 ∧
          x.2.queue.map (·.event.type) = ["REFILL", "PRINT"]) = true := by decide +kernel
  obtain ⟨s, hs, hall⟩ := (Option.any_eq_true _ _).mp hrun
  obtain ⟨hstatus, hfail⟩ := of_decide_eq_true hall
  obtain ⟨⟨failure, r⟩, hfail, hleft⟩ := (Option.any_eq_true _ _).mp hfail
  obtain ⟨hsheets, hqueue⟩ := of_decide_eq_true hleft
  have hr : Run printerMachine printed s := (Run.initial "printer" none).append hs
  have hkept : Call.takeTrace ∉ printed := by simp [printed]
  exact ⟨s, failure, r, hr, hkept, hstatus, hfail, hsheets, hqueue,
    Run.atomic hr hkept hstatus hfail⟩

end Session

end Statechart
