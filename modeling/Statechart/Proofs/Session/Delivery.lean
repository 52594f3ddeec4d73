import Statechart.Proofs.Macrostep.Run
import Statechart.Proofs.Session.Order
import Statechart.Proofs.Session.Settled

/-!
# What becomes of an event

No event is lost, none comes twice, and none overtakes another (`Run.in_order`): this ties
together the order of the queue, the end of sessions and the calls that leave nothing waiting.

The post of an actor is dropped at its turn if its invocation has no actor then. The queue
knows the invocation of a post, not which of its actors posted it (`attributed`): so the post
of an actor that has been stopped is still given to the machine when the state that invokes it
was left and entered again before the post came to its turn.

* `Run.in_order`: from the call or the actor to the turn.
* `Run.handled_iff`: which posts are given to the machine.
* `post_outlives_actor`: one of an actor that was stopped before.
-/
namespace Statechart.Session

open Observation

variable {C E A : Type} [BEq C] {m : Machine C E A} {s t : Session C E A} {calls more : List Call}

/-- The session after calls, if each of them comes to a reply with that fuel. -/
def afterAll (fuel : Nat) (calls : List Call) (s : Session C E A) : Option (Session C E A) :=
  calls.foldlM (fun s call => s.after fuel call) s

theorem Run.append {fuel : Nat} (h : Run m calls s) (ht : s.afterAll fuel more = some t) :
    Run m (calls ++ more) t := by
  induction more generalizing calls s with
  | nil => cases ht; rwa [List.append_nil]
  | cons call more ih =>
    rw [afterAll, List.foldlM_cons] at ht
    obtain ⟨u, hu, ht⟩ := Option.bind_eq_some_iff.mp ht
    rw [List.append_cons]
    exact ih (h.call hu) ht

theorem Run.current (h : Run m calls s) : Current s := (During.rest h).current

theorem Run.inOrder (h : Run m calls s) (kept : .takeTrace ∉ calls) :
    InOrder (calls.filterMap Call.sent?) s :=
  (During.rest h).of_stride_of_kept (P := fun calls s => InOrder (calls.filterMap Call.sent?) s)
    (inOrder_ofMachine m) (fun _ _ _ hcall ih => ih.upon hcall) (fun _ _ _ ih hst => ih.stride hst)
    kept

/-- No event is lost, doubled or overtaken. After any calls (none of which takes the trace
away, so that it tells everything):

* events came to the queue in the order they were sent, fired and posted, and came to their
  turns in that order, each once; a post whose invocation had no actor then was dropped, and
  every other event was given to the machine;
* once the session has ended, no event comes to its turn any more, neither in a later call nor in
  the rest of the one that it ends in, wherever in that call it ends;
* when a first start, a send, a flush or letting time pass succeeds and the session runs, neither
  the queue nor the mailbox holds anything. -/
theorem Run.in_order (h : Run m calls s) (kept : .takeTrace ∉ calls) :
    InOrder (calls.filterMap Call.sent?) s ∧
      (s.status = .stopped → ∀ fuel call t, call ≠ .takeTrace → s.after fuel call = some t →
        t.status = .stopped ∧ turns [] t.seen = turns [] s.seen) ∧
      (∀ call u t, Strides (s.upon call) u → u.status = .stopped → Strides u t →
        t.status = .stopped ∧ turns [] t.seen = turns [] u.seen) ∧
      ∀ fuel call t, s.worksOff fuel call = some t → t.status = .running → Settled t := by
  refine ⟨h.inOrder kept, fun hs fuel call t hcall ht => ?_, fun call u t _ hu ht => ?_,
    fun fuel call t ht => ?_⟩
  · exact turns_of_after hs hcall ht
  · exact turns_of_strides hu ht
  · exact worksOff_settled h.current ht

/-- A watch that is on looks out, for ten milliseconds at a time. -/
def watch : Definition := {
  key := "watch"
  initial := some "off"
  states := [
    { key := "off", on := [⟨"ON", [{ target := ["on"] }]⟩] },
    { key := "on"
      on := [⟨"ON", [{ target := ["on"], reenter := true }]⟩, ⟨"OFF", [{ target := ["off"] }]⟩,
        ⟨"SEEN", [{ target := ["alarm"] }]⟩]
      after := [⟨10, [{ target := ["off"] }]⟩]
      invoke := [{ id := some "eye", src := "camera" }] },
    { key := "alarm" }] }

/-- A camera says when it is ready. -/
def cameras : Registry Unit Unit Unit where
  actors := [("camera", ⟨fun _ => (), fun _ _ => ⟨(), [{ type := "READY" }]⟩,
    fun _ _ _ => ⟨(), []⟩, fun _ _ => ⟨(), []⟩⟩)]

def watchMachine : Machine Unit Unit Unit := Machine.buildD cameras () 10 watch

/-- The watch is turned on before it is started; something is seen and it is turned off before
that is known; it is turned on once more until its time is up. -/
def watched : List Call :=
  [.send { type := "ON" }, .start, .post 0 { type := "SEEN" }, .send { type := "OFF" },
    .send { type := "ON" }, .advance 10]

theorem in_order_watch : ∃ s, Run watchMachine watched s ∧ .takeTrace ∉ watched ∧
    (turns [] s.seen).map (fun turn => (turn.event.type, turn.handled)) =
      [("ON", true), ("READY", true), ("OFF", true), ("SEEN", false), ("ON", true),
        ("READY", true), ("after(10)#watch.on", true)] ∧
    InOrder (watched.filterMap Call.sent?) s ∧
      (s.status = .stopped → ∀ fuel call t, call ≠ .takeTrace → s.after fuel call = some t →
        t.status = .stopped ∧ turns [] t.seen = turns [] s.seen) ∧
      (∀ call u t, Strides (s.upon call) u → u.status = .stopped → Strides u t →
        t.status = .stopped ∧ turns [] t.seen = turns [] u.seen) ∧
      ∀ fuel call t, s.worksOff fuel call = some t → t.status = .running → Settled t := by
  have hrun : ((ofMachine watchMachine "watch" none).afterAll 9 watched).any (fun s =>
        (turns [] s.seen).map (fun turn => (turn.event.type, turn.handled)) =
          [("ON", true), ("READY", true), ("OFF", true), ("SEEN", false), ("ON", true),
            ("READY", true), ("after(10)#watch.on", true)]) = true := by decide +kernel
  obtain ⟨s, hs, hturns⟩ := (Option.any_eq_true _ _).mp hrun
  have hr : Run watchMachine watched s := (Run.initial "watch" none).append hs
  have hkept : Call.takeTrace ∉ watched := by simp [watched]
  exact ⟨s, hr, hkept, of_decide_eq_true hturns, Run.in_order hr hkept⟩

/-! ## Posts and the actors they came from -/

/-- Events of the queue, each post with the handle that it came through. -/
def attributed : List Queued → List (Handle × Event) → List (Queued × Option Handle)
  | [], _ => []
  | item :: items, posts =>
    match item.sender, posts with
    | some _, post :: posts => (item, some post.1) :: attributed items posts
    | _, posts => (item, none) :: attributed items posts

/-- Where posts are queued in their order, each is attributed to the handle that it names. -/
theorem attributed_spec {items rest : List Queued} {posts : List (Handle × Event)}
    (h : items.filter (·.sender.isSome) ++ rest = posts.map fun post => .posted (mail post))
    {k : Nat} {item : Queued} {handle : Handle}
    (hk : (attributed items posts)[k]? = some (item, some handle)) :
    items[k]? = some item ∧ item.sender = some handle.id := by
  induction items generalizing posts k with
  | nil => simp [attributed] at hk
  | cons first items ih =>
    cases hs : first.sender with
    | none =>
      rw [List.filter_cons_of_neg (by simp [hs])] at h
      cases k with
      | zero => simp [attributed, hs] at hk
      | succ k => exact ih h (by simpa [attributed, hs] using hk)
    | some id =>
      rw [List.filter_cons_of_pos (by simp [hs])] at h
      cases posts with
      | nil => cases h
      | cons post posts =>
        obtain ⟨hfirst, hrest⟩ := List.cons.inj h
        cases k with
        | zero =>
          simp only [attributed, hs, List.getElem?_cons_zero, Option.some.injEq,
            Prod.mk.injEq] at hk
          obtain ⟨rfl, rfl⟩ := hk
          exact ⟨rfl, by rw [hfirst]; rfl⟩
        | succ k => exact ih hrest (by simpa [attributed, hs] using hk)

/-- A post is given to the machine if and only if its invocation has an actor at its turn.
So the post of an actor that has been stopped before is dropped, unless another actor of the
same invocation runs by then. -/
theorem Run.handled_iff (h : Run m calls s) (kept : .takeTrace ∉ calls) {k : Nat} {item : Queued}
    {handle : Handle} {turn : Observation.Turn}
    (hitem : (attributed (s.seen.filterMap queued?) (s.seen.filterMap posted?))[k]? =
      some (item, some handle))
    (hturn : (turns [] s.seen)[k]? = some turn) :
    turn.event = item.event ∧
      (turn.handled = true ↔ ∃ other ∈ turn.running, other.id = handle.id) := by
  have ho := h.inOrder kept
  obtain ⟨worked, waiting, hqueued, hall, -⟩ := ho.turns
  obtain ⟨hk, hsender⟩ := attributed_spec ho.posted hitem
  obtain ⟨hlt, -⟩ := List.getElem?_eq_some_iff.mp hturn
  rw [hqueued, List.getElem?_append_left (hall.length_eq ▸ hlt)] at hk
  have hof : turn.Of item := by
    have := (List.forall₂_iff_get.mp hall).2 k hlt (hall.length_eq ▸ hlt)
    simpa [List.getElem?_eq_some_iff.mp hturn |>.2, List.getElem?_eq_some_iff.mp hk |>.2] using this
  refine ⟨hof.event, hof.handled.trans ?_⟩
  rw [hsender]
  simp

/-- What was seen by the first camera is dropped: the watch is off by then. -/
theorem handled_iff_watch : ∃ (s : Session Unit Unit Unit) (item : Queued) (handle : Handle)
    (turn : Observation.Turn), Run watchMachine watched s ∧ .takeTrace ∉ watched ∧
    (attributed (s.seen.filterMap queued?) (s.seen.filterMap posted?))[3]? =
      some (item, some handle) ∧ (turns [] s.seen)[3]? = some turn ∧
    turn.handled = false ∧ turn.event = item.event ∧
      (turn.handled = true ↔ ∃ other ∈ turn.running, other.id = handle.id) := by
  have hrun : ((ofMachine watchMachine "watch" none).afterAll 9 watched).any (fun s =>
      (attributed (s.seen.filterMap queued?) (s.seen.filterMap posted?))[3]? =
        some (⟨{ type := "SEEN", origin := some "eye" }, some "eye"⟩, some ⟨0, "eye", true⟩) &&
      (turns [] s.seen)[3]? = some ⟨{ type := "SEEN", origin := some "eye" }, false, []⟩) =
        true := by decide +kernel
  obtain ⟨s, hs, hall⟩ := (Option.any_eq_true _ _).mp hrun
  simp only [Bool.and_eq_true, decide_eq_true_eq] at hall
  have hr : Run watchMachine watched s := (Run.initial "watch" none).append hs
  have hkept : Call.takeTrace ∉ watched := by simp [watched]
  exact ⟨s, _, _, _, hr, hkept, hall.1, hall.2, rfl, Run.handled_iff hr hkept hall.1 hall.2⟩

/-- The watch is turned on again after something was seen, before that is known. -/
def rewatched : List Call :=
  [.send { type := "ON" }, .start, .post 0 { type := "SEEN" }, .send { type := "ON" }]

/-- The post of an actor that was stopped before its turn can be given to the machine: the
first camera has been replaced by the second when its post comes to its turn, and the alarm goes
off. -/
theorem post_outlives_actor : ∃ (s : Session Unit Unit Unit) (item : Queued) (handle : Handle)
    (turn : Observation.Turn), Run watchMachine rewatched s ∧
    (attributed (s.seen.filterMap queued?) (s.seen.filterMap posted?))[3]? =
      some (item, some handle) ∧ (turns [] s.seen)[3]? = some turn ∧
    (∀ other ∈ turn.running, other.number ≠ handle.number) ∧ turn.handled = true ∧
    s.snapshot.map Snapshot.value = some (.leaf "alarm") := by
  have hrun : ((ofMachine watchMachine "watch" none).afterAll 9 rewatched).any (fun s =>
      (attributed (s.seen.filterMap queued?) (s.seen.filterMap posted?))[3]? =
        some (⟨{ type := "SEEN", origin := some "eye" }, some "eye"⟩, some ⟨0, "eye", true⟩) &&
      (turns [] s.seen)[3]? =
        some ⟨{ type := "SEEN", origin := some "eye" }, true, [⟨1, "eye", true⟩]⟩ &&
      s.snapshot.map Snapshot.value = some (.leaf "alarm")) = true := by decide +kernel
  obtain ⟨s, hs, hall⟩ := (Option.any_eq_true _ _).mp hrun
  simp only [Bool.and_eq_true, decide_eq_true_eq] at hall
  exact ⟨s, _, _, _, (Run.initial "watch" none).append hs, hall.1.1, hall.1.2, by simp, rfl, hall.2⟩

end Statechart.Session
