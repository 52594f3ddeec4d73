import Statechart.Proofs.Session.Delivery
import Statechart.Proofs.Session.Lifetimes

/-!
# The life of a session and of its actors

A session is not started, runs, and is stopped, in this order, and never goes back. However it
ends (its machine is done, it is stopped, it is given up), it ends once, and after its end it
only forgets: nothing is run, shown or noted down any more, there are no timers and no actors.

An actor has a life of its own within that of its session. It is stopped because its state is
left, because the machine is done, or because the session is stopped or given up, whichever
comes first; no matter which, its callbacks are one start, then events, then one stop with the
handle closed (`Lives`).

* `Lives.start`, `Lives.receive`, `Lives.stop`: the callbacks, one at a time.
* `Tended.stride`: what every stride keeps.
* `During.life_cycle`: the whole life, after every call and in the middle of it.
-/
namespace Statechart

/-- How far a session has come in its life. -/
def Status.rank : Status → Nat
  | .notStarted => 0
  | .running => 1
  | .stopped => 2

namespace Observation

variable {C E : Type}

def actor? : Observation C E → Option Handle
  | .started handle _ | .received handle _ | .stopped handle => some handle
  | _ => none

/-- The callbacks of the actor of a number, in their order. -/
def callbacks (number : Nat) (seen : List (Observation C E)) : List (Observation C E) :=
  seen.filter fun o => o.actor?.any (·.number == number)

/-- The callbacks of the actor of a handle: one start, any events, and then `last`. -/
def Life (handle : Handle) (last callbacks : List (Observation C E)) : Prop :=
  handle.alive = true ∧ ∃ (context : C) (events : List Event),
    callbacks = .started handle context :: events.map (.received handle) ++ last

/-- The callbacks of all actors when so many were started and those with these handles run. -/
structure Lives (handles : List Handle) (started : Nat) (seen : List (Observation C E)) :
    Prop where
  nodup : (handles.map Handle.number).Nodup
  lt : ∀ h ∈ handles, h.number < started
  unborn : ∀ k, started ≤ k → callbacks k seen = []
  running : ∀ h ∈ handles, Life h [] (callbacks h.number seen)
  ended : ∀ k < started, (∀ h ∈ handles, h.number ≠ k) →
    ∃ h : Handle, h.number = k ∧ Life h [.stopped h.close] (callbacks k seen)

theorem actor?_of_isCalm {o : Observation C E} (h : o.isCalm = true) : o.actor? = none := by
  cases o <;> first | rfl | simp [isCalm] at h

section Callbacks

variable {k : Nat} {seen more : List (Observation C E)}

@[simp] theorem callbacks_append :
    callbacks k (seen ++ more) = callbacks k seen ++ callbacks k more := List.filter_append ..

theorem callbacks_of_none (hmore : ∀ o ∈ more, o.actor? = none) : callbacks k more = [] :=
  List.filter_eq_nil_iff.mpr fun o ho => by simp [hmore o ho]

theorem callbacks_self {o : Observation C E} {h : Handle} (ho : o.actor? = some h)
    (hk : h.number = k) : callbacks k [o] = [o] := by
  simp [callbacks, ho, hk]

theorem callbacks_other {o : Observation C E} {h : Handle} (ho : o.actor? = some h)
    (hk : h.number ≠ k) : callbacks k [o] = [] := by
  simp [callbacks, ho, hk]

end Callbacks

namespace Lives

variable {handles : List Handle} {started : Nat} {seen more : List (Observation C E)}

theorem nil : Lives (C := C) (E := E) [] 0 [] where
  nodup := .nil
  lt _ hh := absurd hh List.not_mem_nil
  unborn _ _ := rfl
  running _ hh := absurd hh List.not_mem_nil
  ended k hk := absurd hk (Nat.not_lt_zero k)

theorem skip (h : Lives handles started seen) (hmore : ∀ o ∈ more, o.actor? = none) :
    Lives handles started (seen ++ more) := by
  have heq : ∀ k, callbacks k (seen ++ more) = callbacks k seen := fun k => by
    rw [callbacks_append, callbacks_of_none hmore, List.append_nil]
  exact ⟨h.nodup, h.lt, fun k hk => by rw [heq, h.unborn k hk],
    fun a ha => by rw [heq]; exact h.running a ha,
    fun k hk hno => by rw [heq]; exact h.ended k hk hno⟩

/-- A new actor is started. -/
theorem start (h : Lives handles started seen) (handle : Handle) (hn : handle.number = started)
    (ha : handle.alive = true) (context : C) :
    Lives (handles ++ [handle]) (started + 1) (seen ++ [.started handle context]) := by
  have hself : callbacks started (seen ++ [.started handle context]) =
      [.started handle context] := by
    rw [callbacks_append, h.unborn started (Nat.le_refl _), callbacks_self rfl hn,
      List.nil_append]
  have hother : ∀ k ≠ started, callbacks k (seen ++ [.started handle context]) =
      callbacks k seen := fun k hk => by
    rw [callbacks_append, callbacks_other rfl (by rw [hn]; exact hk.symm), List.append_nil]
  refine ⟨?_, fun a ha => ?_, fun k hk => ?_, fun a hmem => ?_, fun k hk hno => ?_⟩
  · rw [List.map_append, List.nodup_append]
    refine ⟨h.nodup, by simp, fun n hn' k hk => ?_⟩
    obtain ⟨a, ha, rfl⟩ := List.mem_map.mp hn'
    have := h.lt a ha
    simp only [List.map_cons, List.map_nil, List.mem_singleton] at hk
    omega
  · rcases List.mem_append.mp ha with ha | ha
    · exact Nat.lt_succ_of_lt (h.lt a ha)
    · rw [List.mem_singleton.mp ha, hn]; exact Nat.lt_succ_self _
  · rw [hother k (by omega), h.unborn k (by omega)]
  · rcases List.mem_append.mp hmem with hmem | hmem
    · rw [hother _ (Nat.ne_of_lt (h.lt a hmem))]; exact h.running a hmem
    · rw [List.mem_singleton.mp hmem, hn, hself]; exact ⟨ha, context, [], rfl⟩
  · have hk' : k ≠ started := fun e => hno handle (by simp) (hn.trans e.symm)
    rw [hother k hk']
    exact h.ended k (by omega) fun a ha => hno a (by simp [ha])

/-- An actor that runs gets an event. -/
theorem receive (h : Lives handles started seen) {handle : Handle} (hh : handle ∈ handles)
    (event : Event) : Lives handles started (seen ++ [.received handle event]) := by
  have hother : ∀ k, handle.number ≠ k → callbacks k (seen ++ [.received handle event]) =
      callbacks k seen := fun k hk => by
    rw [callbacks_append, callbacks_other rfl hk, List.append_nil]
  refine ⟨h.nodup, h.lt, fun k hk => ?_, fun a ha => ?_, fun k hk hno => ?_⟩
  · have := h.lt handle hh
    rw [hother k (by omega), h.unborn k hk]
  · by_cases hn : handle.number = a.number
    · have heq : handle = a := List.inj_on_of_nodup_map h.nodup hh ha hn
      obtain ⟨halive, context, events, hl⟩ := h.running a ha
      refine ⟨halive, context, events ++ [event], ?_⟩
      rw [callbacks_append, hl, callbacks_self rfl hn, heq]
      simp
    · rw [hother _ hn]; exact h.running a ha
  · rw [hother k (hno handle hh)]; exact h.ended k hk hno

/-- An actor that runs is stopped. -/
theorem stop (h : Lives handles started seen) {handle : Handle} (hh : handle ∈ handles) :
    Lives (handles.filter (·.number != handle.number)) started
      (seen ++ [.stopped handle.close]) := by
  have hother : ∀ k, handle.number ≠ k → callbacks k (seen ++ [.stopped handle.close]) =
      callbacks k seen := fun k hk => by
    rw [callbacks_append, callbacks_other (h := handle.close) rfl hk, List.append_nil]
  refine ⟨(List.filter_sublist.map _).nodup h.nodup, fun a ha => h.lt a (List.mem_of_mem_filter ha),
    fun k hk => ?_, fun a ha => ?_, fun k hk hno => ?_⟩
  · have := h.lt handle hh
    rw [hother k (by omega), h.unborn k hk]
  · obtain ⟨ha, hn⟩ := List.mem_filter.mp ha
    rw [hother _ (Ne.symm (bne_iff_ne.mp hn))]; exact h.running a ha
  · by_cases hn : handle.number = k
    · obtain ⟨halive, context, events, hl⟩ := h.running handle hh
      have hself : callbacks handle.number [.stopped handle.close] =
          [(.stopped handle.close : Observation C E)] := callbacks_self (h := handle.close) rfl rfl
      refine ⟨handle, hn, halive, context, events, ?_⟩
      rw [callbacks_append, ← hn, hl, hself, List.append_nil]
    · rw [hother k hn]
      refine h.ended k hk fun a ha hak => ?_
      exact hno a (List.mem_filter.mpr ⟨ha, bne_iff_ne.mpr fun e => hn (e.symm.trans hak)⟩) hak

/-- Actors that run are stopped one after the other. -/
theorem stopAll (h : Lives handles started seen) (stopped : List Handle)
    (hsub : ∀ a ∈ stopped, a ∈ handles) (hnodup : (stopped.map Handle.number).Nodup) :
    Lives
      (runningAfter handles (stopped.map fun a => Observation.stopped (C := C) (E := E) a.close))
      started (seen ++ stopped.map fun a => .stopped a.close) := by
  induction stopped generalizing handles seen with
  | nil => simpa [runningAfter] using h
  | cons a stopped ih =>
    rw [List.map_cons, List.nodup_cons] at hnodup
    rw [List.map_cons, List.append_cons]
    have hstop := h.stop (hsub a (by simp))
    refine ih hstop (fun b hb => ?_) hnodup.2
    refine List.mem_filter.mpr ⟨hsub b (by simp [hb]), bne_iff_ne.mpr fun e => hnodup.1 ?_⟩
    exact e ▸ List.mem_map_of_mem hb

end Lives

end Observation

namespace Session

open Observation

variable {C E A : Type} {m : Machine C E A} {s t u : Session C E A}

/-! ## Callbacks of a session -/

/-- The callbacks of all actors of a session. -/
def Lives (s : Session C E A) : Prop := Observation.Lives s.handles s.started s.seen

namespace Lives

theorem calm (h : Lives s) (hc : Calm s t) : Lives t := by
  obtain ⟨l, hl, ha⟩ := hc.seen
  unfold Lives
  rw [hc.handles, hc.started, hl]
  exact Observation.Lives.skip h fun o ho => actor?_of_isCalm (ha o ho)

theorem startActor (h : Lives s) (context : C) (id : String) (source : ActorSource C A) :
    Lives (s.startActor context id source) := by
  rw [startActor_eq]
  refine Lives.calm ?_ (.accept _ _ _)
  have hstart := Observation.Lives.start h { number := s.started, id } rfl rfl context
  simpa [Lives, handles, note, seen] using hstart

theorem stopActor (h : Lives s) (id : String) : Lives (s.stopActor id) := by
  unfold Session.stopActor
  split
  · exact h
  · rename_i a ha
    rw [stopRunning_eq]
    have hmem : a.handle ∈ s.handles := List.mem_map_of_mem (List.mem_of_find?_eq_some ha)
    have hstop := Observation.Lives.stop h hmem
    simpa [Lives, handles, note, seen, List.filter_map, Function.comp_def] using hstop

theorem deliver (h : Lives s) (id : String) (event : Event) : Lives (s.deliver id event) := by
  have hframe := deliver_frame s id event
  unfold Lives
  rw [hframe.handles, hframe.started]
  unfold Session.deliver
  split
  · exact h
  · rename_i a ha
    have hmem : a.handle ∈ s.handles := List.mem_map_of_mem (List.mem_of_find?_eq_some ha)
    obtain ⟨l, hl, hcalm⟩ := (Calm.accept _ a.handle _).seen
    rw [hl, seen_note]
    exact (Observation.Lives.receive h hmem event).skip fun o ho => actor?_of_isCalm (hcalm o ho)

theorem execute (h : Lives s) (context : C) (command : Command) :
    Lives (s.execute context command) := by
  cases command with
  | schedule owner event delayMs => exact h
  | cancelTimers owner => exact h
  | invoke owner id src =>
    dsimp only [Session.execute]
    split
    · exact h
    · exact h.startActor context id _
  | stopActor id => exact h.stopActor id
  | sendTo actor event => exact h.deliver actor event

theorem foldl_execute (context : C) : ∀ (commands : List Command) {s : Session C E A},
    Lives s → Lives (commands.foldl (Session.execute context) s)
  | [], _, h => h
  | command :: commands, _, h => foldl_execute context commands (h.execute context command)

/-- The end of a session stops all actors that still run. -/
theorem teardown (h : Lives s) : Lives s.teardown := by
  have hall := Observation.Lives.stopAll h s.handles.reverse
    (fun a ha => List.mem_reverse.mp ha)
    (by rw [List.map_reverse]; exact List.nodup_reverse.mpr h.nodup)
  rw [runningAfter_all] at hall
  rw [teardown_eq]
  simpa [Lives, handles, seen] using hall

end Lives

/-! ## Strides -/

/-- The actors of a session are cared for: their callbacks are in order, and neither they nor
timers outlast the session. -/
structure Tended (s : Session C E A) : Prop where
  lives : Lives s
  rest : s.status ≠ .running → s.timers.pending = [] ∧ s.handles = []

namespace Tended

theorem calm (h : Tended s) (hc : Calm s t) : Tended t :=
  ⟨h.lives.calm hc, by rw [hc.status, hc.timers, hc.handles]; exact h.rest⟩

theorem teardown (h : Lives s) : Tended s.teardown :=
  ⟨h.teardown, fun _ => by rw [teardown_eq]; exact ⟨rfl, rfl⟩⟩

theorem stop (h : Tended s) : Tended s.stop.session := by
  unfold Session.stop
  split
  · exact h
  · rename_i hs
    exact ⟨h.lives, fun _ => h.rest (by rw [hs]; decide)⟩
  · exact .teardown h.lives
  · rename_i snapshot _ _
    have heffects := h.lives.calm (.noteEffects s (s.machine.exitStep snapshot .live).effects)
    dsimp only
    split
    · exact .teardown heffects
    · exact .teardown heffects

/-- A session that runs takes a macrostep over and goes on, or ends. -/
theorem apply (h : Lives s) (hs : s.status = .running) (step : Macrostep C) :
    Tended (s.apply step) ∧ 1 ≤ (s.apply step).status.rank := by
  obtain ⟨t, ht, he⟩ := apply_eq s step
  have hlives : Lives { t with snapshot := some step.snapshot } :=
    ((h.foldl_execute step.snapshot.context step.commands).calm ht : Lives t)
  have hstatus : t.status = .running :=
    ht.status.trans ((foldl_execute_machine step.snapshot.context step.commands s).2.trans hs)
  rw [he]
  split
  · exact ⟨.teardown hlives, by simp [teardown_eq, Status.rank]⟩
  · exact ⟨⟨hlives, fun hn => absurd hstatus hn⟩, by simp [hstatus, Status.rank]⟩

theorem upon (h : Tended s) {call : Call} (kept : call ≠ .takeTrace) :
    Tended (s.upon call) ∧ s.status.rank ≤ (s.upon call).status.rank := by
  cases call with
  | send event =>
    dsimp only [Session.upon]
    split
    · exact ⟨h, Nat.le_refl _⟩
    · exact ⟨(h.calm (.note s rfl)).calm (.enqueue _ _), Nat.le_refl _⟩
  | stop =>
    refine ⟨h.stop, ?_⟩
    rw [Session.upon, stop_status]
    cases s.status <;> decide
  | post number event =>
    exact ⟨h.calm (.post s number event), (post_frame s number event).status ▸ Nat.le_refl _⟩
  | takeTrace => exact absurd rfl kept
  | _ => exact ⟨⟨h.lives, h.rest⟩, Nat.le_refl _⟩

variable [BEq C]

theorem handle (h : Tended s) (hs : s.status = .running) (snapshot : Snapshot C)
    (event : Event) : Tended (s.handle snapshot event).session ∧
      1 ≤ (s.handle snapshot event).session.status.rank := by
  have hc := (Calm.note s (o := .handled event) rfl).trans
    (.noteEffects _ (s.machine.step snapshot event .live).effects)
  unfold Session.handle
  dsimp only
  split
  · exact ⟨h.calm hc, by rw [Turn.session, hc.status, hs]; decide⟩
  · exact apply (h.calm hc).lives (hc.status.trans hs) _

theorem turn (h : Tended s) :
    Tended s.turn.session ∧ s.status.rank ≤ s.turn.session.status.rank := by
  have hc := h.calm (.collect s)
  have hstatus := (collect_frame s).status
  have hrest (rest : List Queued) : Tended { s.collect with queue := rest } := ⟨hc.lives, hc.rest⟩
  have ht := s.took
  generalize s.turn = turn at ht ⊢
  cases ht with
  | idle _ => exact ⟨hc, hstatus ▸ Nat.le_refl _⟩
  | @dropped item rest snapshot _ _ _ _ =>
    exact ⟨(hrest rest).calm (.note _ rfl), hstatus ▸ Nat.le_refl _⟩
  | @handled item rest snapshot hs _ _ _ =>
    obtain ⟨htended, hrank⟩ := (hrest rest).handle hs snapshot item.event
    have hone : s.status.rank = 1 := by rw [← hstatus, hs]; rfl
    exact ⟨htended, hone ▸ hrank⟩

/-- Every stride keeps the actors cared for, and no session goes back in its life. -/
theorem stride (h : Tended s) (hst : Stride s t) : Tended t ∧ s.status.rank ≤ t.status.rank := by
  cases hst with
  | unstarted hs he =>
    have hc := Calm.noteEffects s (s.machine.startStep .live).effects
    exact ⟨h.calm hc, hc.status ▸ Nat.le_refl _⟩
  | @started step hs he =>
    have hlives := h.lives.calm (.noteEffects s (s.machine.startStep .live).effects)
    obtain ⟨htended, hrank⟩ := apply (s := { s.noteEffects (s.machine.startStep .live).effects with
      status := .running }) hlives rfl step
    exact ⟨htended, by rw [hs]; exact Nat.zero_le _⟩
  | turn => exact h.turn
  | @fired limit timer timers hs ht =>
    have hlives : Lives (Session.note { s with timers } (.fired timer)) := by
      unfold Lives
      rw [seen_note]
      exact Observation.Lives.skip h.lives (by simp [Observation.actor?])
    exact ⟨⟨hlives.calm (.enqueue _ _), fun hn => absurd hs hn⟩, Nat.le_refl _⟩
  | waited _ => exact ⟨⟨h.lives, h.rest⟩, Nat.le_refl _⟩

end Tended

/-! ## After the end -/

variable [BEq C]

/-- A call of a session that has ended finds nothing to do; only listeners and the time of
day can still be changed. -/
theorem idle_of_stopped (hs : s.status = .stopped) (hactors : s.actors = []) {call : Call}
    (kept : call ≠ .takeTrace) {fuel : Nat} (h : s.after fuel call = some t) :
    t = { s with listeners := t.listeners, subscribed := t.subscribed, time := t.time } := by
  have hrun : ¬s.status = .running := by rw [hs]; decide
  cases call with
  | start => simp only [after, start, hs] at h; cases h; rfl
  | send event => simp only [after, send, hs] at h; cases h; rfl
  | flush => simp only [after, flush, if_neg hrun] at h; cases h; rfl
  | advance ms => simp only [after, advance, if_pos hrun] at h; cases h; rfl
  | stop =>
    have hstop : s.stop.session = s := by unfold Session.stop; rw [hs]; rfl
    cases h; rw [hstop]
  | post number event =>
    have hpost : s.post number event = s := by unfold Session.post; rw [hactors]; rfl
    cases h; rw [hpost]
  | takeTrace => exact absurd rfl kept
  | subscribe => cases h; rfl
  | unsubscribe listener => cases h; rfl
  | clock time => cases h; rfl

/-! ## The whole life -/

omit [BEq C] in
theorem tended_ofMachine (m : Machine C E A) (name : String) (journalLimit : Option Nat) :
    Tended (ofMachine m name journalLimit) :=
  ⟨.nil, fun _ => ⟨rfl, rfl⟩⟩

omit [BEq C] in
/-- Giving a session up stops its actors as well. -/
theorem Tended.drop (h : Tended s) : Tended s.drop ∧ s.drop.status ≠ .running := by
  unfold Session.drop
  split
  · exact ⟨.teardown h.lives, by simp [teardown_eq]⟩
  · exact ⟨h, ‹_›⟩

theorem During.tended {calls : List Call} (h : During m calls s) (kept : .takeTrace ∉ calls) :
    Tended s :=
  h.of_stride_of_kept (P := fun _ s => Tended s) (tended_ofMachine m)
    (fun _ _ _ hcall ih => (ih.upon hcall).1) (fun _ _ _ ih hst => (ih.stride hst).1) kept

/-- Every actor was started once, got its events after that, and was stopped once at the end if
it does not run any more; its handle was open until then. No other callback was run. -/
structure Accounted (s : Session C E A) : Prop where
  life : ∀ k < s.started, ∃ (handle : Handle) (context : C) (events : List Event),
    handle.number = k ∧ handle.alive = true ∧ callbacks k s.seen =
      .started handle context :: events.map (.received handle) ++
        if handle ∈ s.handles then [] else [.stopped handle.close]
  unborn : ∀ k, s.started ≤ k → callbacks k s.seen = []

omit [BEq C] in
theorem Lives.accounted (h : Lives s) : Accounted s := by
  refine ⟨fun k hk => ?_, h.unborn⟩
  by_cases hrun : ∃ a ∈ s.handles, a.number = k
  · obtain ⟨a, ha, rfl⟩ := hrun
    obtain ⟨halive, context, events, hl⟩ := h.running a ha
    exact ⟨a, context, events, rfl, halive, by rw [if_pos ha]; exact hl⟩
  · obtain ⟨a, rfl, halive, context, events, hl⟩ :=
      h.ended k hk fun a ha hn => hrun ⟨a, ha, hn⟩
    exact ⟨a, context, events, rfl, halive, by rw [if_neg fun ha => hrun ⟨a, ha, rfl⟩]; exact hl⟩

/-- What a session has at every point of its life. -/
structure LifeCycle (s : Session C E A) : Prop where
  accounted : Accounted s
  /-- Unless the session runs there are no timers and no actors. -/
  rest : s.status ≠ .running → s.timers.pending = [] ∧ s.actors = []
  /-- The rest of a call does not take the session back in its life. -/
  forward : ∀ t, Strides s t → s.status.rank ≤ t.status.rank
  /-- When the session has ended, the rest of the call runs and shows nothing. -/
  finished : s.status = .stopped → ∀ t, Strides s t → Ended s t
  /-- No later call takes the session back either. -/
  later : ∀ fuel call t, call ≠ .takeTrace → s.after fuel call = some t →
    s.status.rank ≤ t.status.rank
  /-- When the session has ended, a later call changes nothing but the listeners and the time
  of day. -/
  idle : s.status = .stopped → ∀ fuel call t, call ≠ .takeTrace → s.after fuel call = some t →
    t = { s with listeners := t.listeners, subscribed := t.subscribed, time := t.time }
  /-- Giving the session up stops its actors as well. -/
  dropped : Accounted s.drop ∧ s.drop.timers.pending = [] ∧ s.drop.actors = []

theorem Tended.lifeCycle (h : Tended s) : LifeCycle s := by
  have hrest : ∀ {u : Session C E A}, Tended u → u.status ≠ .running →
      u.timers.pending = [] ∧ u.actors = [] := fun hu hn =>
    ⟨(hu.rest hn).1, List.map_eq_nil_iff.mp (hu.rest hn).2⟩
  have hforward : ∀ {u v : Session C E A}, Tended u → Strides u v →
      u.status.rank ≤ v.status.rank := fun {u v} hu huv =>
    (huv.keep (P := fun v => Tended v ∧ u.status.rank ≤ v.status.rank)
      (fun _ _ hv hst => ⟨(hv.1.stride hst).1, Nat.le_trans hv.2 (hv.1.stride hst).2⟩)
      ⟨hu, Nat.le_refl _⟩).2
  exact {
    accounted := h.lives.accounted
    rest := hrest h
    forward := fun t hst => hforward h hst
    finished := fun hs t hst => ended_of_strides hs hst
    later := fun fuel call t hcall hafter => by
      obtain ⟨hupon, hrank⟩ := h.upon hcall
      exact Nat.le_trans hrank (hforward hupon (after_strides hafter))
    idle := fun hs fuel call t hcall hafter =>
      idle_of_stopped hs (hrest h (by rw [hs]; decide)).2 hcall hafter
    dropped := ⟨h.drop.1.lives.accounted, hrest h.drop.1 h.drop.2⟩ }

/-- A session lives once, and so do its actors. This holds at every point of a run: after
every call, in the middle of it, and whatever has failed. -/
theorem During.life_cycle {calls : List Call} (h : During m calls s) (kept : .takeTrace ∉ calls) :
    LifeCycle s :=
  (h.tended kept).lifeCycle

/-- The lamp is pressed twice, its bulb cannot be taken out, and it turns itself off before it
is stopped: it had two bulbs, one after the other. -/
def lampCalls : List Call :=
  [.start, .send { type := "PRESS" }, .send { type := "PRESS" }, .send { type := "UNSCREW" },
    .advance 30, .send { type := "PRESS" }, .stop]

theorem life_cycle_lamp : ∃ s, During lampMachine lampCalls s ∧ .takeTrace ∉ lampCalls ∧
    s.status = .stopped ∧ s.started = 3 ∧
    (s.seen.filterMap Observation.actor?).map (fun h => (h.number, h.alive)) =
      [(0, true), (0, false), (1, true), (1, false), (2, true), (2, false)] ∧ LifeCycle s := by
  have hrun : ((ofMachine lampMachine "lamp" none).afterAll 5 lampCalls).any (fun s =>
      s.status = .stopped ∧ s.started = 3 ∧
        (s.seen.filterMap Observation.actor?).map (fun h => (h.number, h.alive)) =
          [(0, true), (0, false), (1, true), (1, false), (2, true), (2, false)]) = true := by
    decide +kernel
  obtain ⟨s, hs, hall⟩ := (Option.any_eq_true _ _).mp hrun
  obtain ⟨hstatus, hstarted, hcallbacks⟩ := of_decide_eq_true hall
  have hduring : During lampMachine lampCalls s := .rest ((Run.initial "lamp" none).append hs)
  have hkept : Call.takeTrace ∉ lampCalls := by simp [lampCalls]
  exact ⟨s, hduring, hkept, hstatus, hstarted, hcallbacks, During.life_cycle hduring hkept⟩

end Session

end Statechart
