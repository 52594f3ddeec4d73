import Statechart.Proofs.Session.Faithful

/-!
# What a turn leaves of a session

A turn in which no macrostep succeeds, because the event is dropped or because its macrostep fails,
takes the event from the queue and changes nothing else that can be seen of the session but its
trace (`Passed`). Posts are collected before, so what waits in the queue and in the mailbox is one
row of events (`waiting`).

* `turned`: what every turn comes to, in these terms.
* `Gives.unique`: an event that is given to the machine has one result.
-/
namespace Statechart.Session

variable {C E A : Type} {s t u : Session C E A}

/-! ## What can be seen of a session -/

/-- The sessions are in the same state, as far as that can be seen: the same actors run, and the
journals and what listeners were shown are the same. -/
structure Alike (s t : Session C E A) : Prop where
  machine : t.machine = s.machine
  status : t.status = s.status
  snapshot : t.snapshot = s.snapshot
  journal : t.journal = s.journal
  actors : t.actors = s.actors
  listeners : t.listeners = s.listeners
  published : ∀ listener, t.published listener = s.published listener

namespace Alike

theorem refl (s : Session C E A) : Alike s s := ⟨rfl, rfl, rfl, rfl, rfl, rfl, fun _ => rfl⟩

theorem trans (h : Alike s t) (h' : Alike t u) : Alike s u :=
  ⟨h'.machine.trans h.machine, h'.status.trans h.status, h'.snapshot.trans h.snapshot,
    h'.journal.trans h.journal, h'.actors.trans h.actors, h'.listeners.trans h.listeners,
    fun listener => (h'.published listener).trans (h.published listener)⟩

/-- What can be seen depends neither on what waits nor on timers. -/
theorem keep (s : Session C E A) (queue : List Queued) (mailbox : List Event) (timers : Timers) :
    Alike s { s with queue, mailbox, timers } :=
  ⟨rfl, rfl, rfl, rfl, rfl, rfl, fun _ => rfl⟩

theorem note (s : Session C E A) {o : Observation C E}
    (ho : ∀ listener, o.published? listener = none) : Alike s (s.note o) where
  machine := rfl
  status := rfl
  snapshot := rfl
  journal := rfl
  actors := rfl
  listeners := rfl
  published listener := by
    rw [Session.published, seen_note, List.filterMap_append, ← Session.published]
    simp [ho]

theorem enqueue (s : Session C E A) (item : Queued) : Alike s (s.enqueue item) :=
  (keep s (s.queue ++ [item]) s.mailbox s.timers).trans (note _ fun _ => rfl)

theorem foldl {α : Type} {f : Session C E A → α → Session C E A} (hf : ∀ s a, Alike s (f s a)) :
    ∀ (l : List α) (s : Session C E A), Alike s (l.foldl f s)
  | [], s => .refl s
  | a :: l, s => (hf s a).trans (foldl hf l (f s a))

theorem noteEffects (s : Session C E A) (effects : List (String × E)) :
    Alike s (s.noteEffects effects) := foldl (fun s _ => note s fun _ => rfl) effects s

theorem collect (s : Session C E A) : Alike s s.collect :=
  (keep s s.queue [] s.timers).trans (foldl (fun s _ => enqueue s _) s.mailbox _)

theorem drops (h : Alike s t) (item : Queued) : t.drops item = s.drops item := by
  unfold Session.drops hasActor
  rw [h.actors]

end Alike

/-! ## Turns -/

/-- The events that wait for their turn, in their order. -/
def waiting (s : Session C E A) : List Queued := s.queue ++ s.mailbox.map .posted

theorem collect_queue (s : Session C E A) : s.collect.queue = s.waiting := by
  rw [collect_eq, waiting]

theorem waiting_collect (s : Session C E A) : s.collect.waiting = s.waiting := by
  rw [waiting, collect_queue, collect_eq]
  exact List.append_nil _

variable [BEq C]

/-- The next event is given to the machine, with this result. -/
structure Gives (s : Session C E A) (item : Queued) (rest : List Queued)
    (result : Except Failure (Macrostep C)) : Prop where
  status : s.status = .running
  waiting : s.waiting = item :: rest
  kept : s.drops item = false
  result : ∃ snapshot, s.snapshot = some snapshot ∧
    (s.machine.step snapshot item.event .live).result = result

theorem Gives.unique {item other : Queued} {rest more : List Queued}
    {result result' : Except Failure (Macrostep C)} (h : Gives s item rest result)
    (h' : Gives s other more result') : result = result' := by
  obtain ⟨rfl, rfl⟩ := List.cons.inj (h.waiting.symm.trans h'.waiting)
  obtain ⟨snapshot, hsnapshot, rfl⟩ := h.result
  obtain ⟨snapshot', hsnapshot', rfl⟩ := h'.result
  rw [Option.some.inj (hsnapshot.symm.trans hsnapshot')]

/-- What is left of a session when an event has had its turn and no macrostep has succeeded. -/
structure Passed (s : Session C E A) (rest : List Queued) (t : Session C E A) : Prop where
  alike : Alike s t
  timers : t.timers = s.timers
  queue : t.queue = rest
  mailbox : t.mailbox = []

omit [BEq C] in
theorem Passed.waiting {rest : List Queued} (h : Passed s rest t) : t.waiting = rest := by
  rw [Session.waiting, h.queue, h.mailbox]
  exact List.append_nil rest

omit [BEq C] in
theorem passed_collect (s : Session C E A) (rest : List Queued) :
    Passed s rest { s.collect with queue := rest } where
  alike := (Alike.collect s).trans (.keep _ rest _ _)
  timers := by rw [collect_eq]
  queue := rfl
  mailbox := by rw [collect_eq]

omit [BEq C] in
theorem Passed.note {rest : List Queued} (h : Passed s rest t) {o : Observation C E}
    (ho : ∀ listener, o.published? listener = none) : Passed s rest (t.note o) :=
  ⟨h.alike.trans (.note t ho), h.timers, h.queue, h.mailbox⟩

omit [BEq C] in
theorem Passed.noteEffects {rest : List Queued} (h : Passed s rest t)
    (effects : List (String × E)) : Passed s rest (t.noteEffects effects) where
  alike := h.alike.trans (.noteEffects t effects)
  timers := by rw [noteEffects_eq]; exact h.timers
  queue := by rw [noteEffects_eq]; exact h.queue
  mailbox := by rw [noteEffects_eq]; exact h.mailbox

/-- A turn that finds something to do. -/
inductive Turned (s : Session C E A) : Turn C E A → Prop
  | idle (h : s.status = .running → s.waiting = [] ∨ s.snapshot = none) : Turned s (.idle s.collect)
  | dropped {item : Queued} {rest : List Queued} {t : Session C E A} (hw : s.waiting = item :: rest)
      (hd : s.drops item = true) (ht : Passed s rest t) : Turned s (.again t)
  | failed {item : Queued} {rest : List Queued} {failure : Failure} {t : Session C E A}
      (hg : Gives s item rest (.error failure)) (ht : Passed s rest t) :
      Turned s (.failed failure t)
  | succeeded {item : Queued} {rest : List Queued} {step : Macrostep C} {t : Session C E A}
      (hg : Gives s item rest (.ok step)) : Turned s (.again t)

theorem turned (s : Session C E A) : Turned s s.turn := by
  have hcollect := Alike.collect s
  have ht := s.took
  generalize s.turn = turn at ht ⊢
  cases ht with
  | idle h =>
    rw [hcollect.status, collect_queue, hcollect.snapshot] at h
    exact .idle h
  | @dropped item rest snapshot hs hq hd hsnapshot =>
    exact .dropped (collect_queue s ▸ hq) (hcollect.drops item ▸ hd)
      ((passed_collect s rest).note fun _ => rfl)
  | @handled item rest snapshot hs hq hd hsnapshot =>
    have hpassed := passed_collect s rest
    have hgives : Gives s item rest (s.collect.machine.step snapshot item.event .live).result :=
      ⟨hcollect.status ▸ hs, collect_queue s ▸ hq, hcollect.drops item ▸ hd,
        snapshot, hcollect.snapshot ▸ hsnapshot, by rw [hcollect.machine]⟩
    unfold Session.handle
    dsimp only
    split
    · rename_i failure hresult
      exact .failed (hresult ▸ hgives) ((hpassed.note fun _ => rfl).noteEffects _)
    · rename_i step hresult
      exact .succeeded (hresult ▸ hgives)

end Statechart.Session
