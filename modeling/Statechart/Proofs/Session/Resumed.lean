import Statechart.Proofs.Session.Delivery
import Statechart.Proofs.Session.Points

/-!
# What waits is taken up by the next call

A session that runs can be left with events that wait: after a macrostep that failed, or with
posts that came since the last call. The next call that works off the queue takes them up before
all that comes later, in their order, and goes on until nothing waits, a macrostep fails, or the
session ends.

* `after_seen`: calls add to what was seen.
* `InOrder.between`: the turns between two sessions of a run.
* `Run.resumes`: the next call that works off the queue.
-/
namespace Statechart

/-- Whether a call takes events from the queue of a session that runs. -/
def Call.works : Call → Bool
  | .send _ | .flush | .advance _ => true
  | _ => false

/-- Whether a call leaves the queue of a session that runs alone. -/
def Call.pauses : Call → Bool
  | .start | .post _ _ | .subscribe | .unsubscribe _ | .clock _ => true
  | _ => false

def Observation.isTurn {C E : Type} : Observation C E → Bool
  | .dropped _ | .handled _ => true
  | _ => false

theorem Observation.turns_ne_nil {C E : Type} {o : Observation C E} {seen : List (Observation C E)}
    (ho : o.isTurn = true) (hmem : o ∈ seen) (handles : List Handle) : turns handles seen ≠ [] := by
  induction seen generalizing handles with
  | nil => exact absurd hmem List.not_mem_nil
  | cons p seen ih =>
    rw [turns]
    rcases List.mem_cons.mp hmem with rfl | hmem
    · cases o with
      | dropped _ => exact List.cons_ne_nil _ _
      | handled _ => exact List.cons_ne_nil _ _
      | _ => cases ho
    · exact List.append_ne_nil_of_right_ne_nil _ (ih hmem _)

namespace Session

open Observation

variable {C E A : Type} {s t u : Session C E A} {call : Call} {fuel : Nat}

/-! ## Calls add to what was seen -/

theorem Aside.seen_extends {seen : List (Observation C E)} (h : Aside s seen t) :
    s.seen <+: t.seen := ⟨seen, h.seen_eq.symm⟩

theorem Calm.seen_extends (h : Calm s t) : s.seen <+: t.seen := by
  obtain ⟨l, hl, -⟩ := h.seen
  exact ⟨l, hl.symm⟩

theorem upon_seen (kept : call ≠ .takeTrace) : s.seen <+: (s.upon call).seen := by
  cases call with
  | send event =>
    dsimp only [upon]
    split
    · exact List.prefix_rfl
    · exact ((Calm.note s (o := .sent event) rfl).trans (.enqueue _ _)).seen_extends
  | stop =>
    obtain ⟨_, h⟩ := stop_aside s
    exact h.seen_extends
  | post number event => exact (Calm.post s number event).seen_extends
  | takeTrace => exact absurd rfl kept
  | _ => exact List.prefix_rfl

section

variable [BEq C]

theorem handle_seen (s : Session C E A) (snapshot : Snapshot C) (event : Event) :
    (s.note (.handled event)).seen <+: (s.handle snapshot event).session.seen := by
  have heffects := (Calm.noteEffects (s.note (.handled event))
    (s.machine.step snapshot event .live).effects).seen_extends
  unfold handle
  dsimp only
  split
  · exact heffects
  · obtain ⟨_, h⟩ := apply_aside ((s.note (.handled event)).noteEffects
      (s.machine.step snapshot event .live).effects) ‹_›
    exact heffects.trans h.seen_extends

theorem turn_seen (s : Session C E A) : ∃ l, s.turn.session.seen = s.seen ++ l ∧
    (s.collect.status = .running → s.collect.queue ≠ [] → s.collect.snapshot ≠ none →
      ∃ o ∈ l, o.isTurn = true) := by
  obtain ⟨collected, hcollected⟩ := (Calm.collect s).seen_extends
  have ht := s.took
  generalize s.turn = turn at ht ⊢
  cases ht with
  | idle h =>
    refine ⟨collected, hcollected.symm, fun hs hqueue hsnapshot => ?_⟩
    rcases h hs with hnil | hnil
    · exact absurd hnil hqueue
    · exact absurd hnil hsnapshot
  | @dropped item rest _ _ _ =>
    refine ⟨collected ++ [.dropped item], ?_, fun _ _ _ => ⟨.dropped item, by simp, rfl⟩⟩
    rw [← List.append_assoc, hcollected]
    exact seen_note { s.collect with queue := rest } (.dropped item)
  | @handled item rest snapshot _ _ _ _ =>
    obtain ⟨more, hmore⟩ := handle_seen { s.collect with queue := rest } snapshot item.event
    rw [seen_note] at hmore
    refine ⟨collected ++ .handled item.event :: more, ?_, fun _ _ _ => ⟨.handled item.event, ?_⟩⟩
    · rw [← hmore, ← List.append_assoc, hcollected, List.append_assoc]
      rfl
    · exact ⟨by simp, rfl⟩

theorem Stride.seen_extends (h : Stride s t) : s.seen <+: t.seen := by
  cases h with
  | unstarted _ _ => exact (Calm.noteEffects s _).seen_extends
  | started _ _ =>
    obtain ⟨_, h⟩ := apply_aside
      { s.noteEffects (s.machine.startStep .live).effects with status := .running } ‹_›
    exact (Calm.noteEffects s _).seen_extends.trans h.seen_extends
  | turn =>
    obtain ⟨l, hl, -⟩ := turn_seen s
    exact ⟨l, hl.symm⟩
  | @fired limit timer timers _ _ =>
    have hnote := (Calm.enqueue (Session.note { s with timers } (.fired timer))
      (.external timer.event)).seen_extends
    rw [seen_note] at hnote
    exact (List.prefix_append _ _).trans hnote
  | waited _ => exact List.prefix_rfl

theorem Strides.seen_extends (h : Strides s t) : s.seen <+: t.seen :=
  h.keep (P := fun t => s.seen <+: t.seen) (fun _ _ hs hst => hs.trans hst.seen_extends)
    List.prefix_rfl

/-- Calls add to what was seen, if they leave the trace. -/
theorem after_seen (h : s.after fuel call = some t) (kept : call ≠ .takeTrace) :
    s.seen <+: t.seen := (upon_seen kept).trans (after_strides h).seen_extends

theorem afterAll_seen {calls : List Call} (h : s.afterAll fuel calls = some t)
    (kept : .takeTrace ∉ calls) : s.seen <+: t.seen := by
  induction calls generalizing s with
  | nil => cases h; exact List.prefix_rfl
  | cons call calls ih =>
    rw [List.mem_cons, not_or] at kept
    rw [afterAll, List.foldlM_cons] at h
    obtain ⟨u, hu, h⟩ := Option.bind_eq_some_iff.mp h
    exact (after_seen hu (Ne.symm kept.1)).trans (ih h kept.2)

end

/-! ## Turns between two sessions of a run -/

/-- What waited has had its turn first, and then what came to the queue later; what has had no turn
still waits, unless the session has ended. -/
theorem InOrder.between {sends more : List Event} (hs : InOrder sends s) (ht : InOrder more t)
    (hrun : s.status ≠ .stopped) {new : List (Observation C E)} (hseen : t.seen = s.seen ++ new) :
    ∃ worked left, s.queue ++ new.filterMap queued? = worked ++ left ∧
      List.Forall₂ Observation.Turn.Of (Observation.turns s.handles new) worked ∧
      (t.status ≠ .stopped → t.queue = left) := by
  obtain ⟨before, waiting, hqueued, hbefore, hwaiting⟩ := hs.turns
  obtain ⟨all, left, hqueued', hall, hleft⟩ := ht.turns
  rw [hseen, turns_append, hs.running] at hall
  rw [hseen, List.filterMap_append, hqueued, hwaiting hrun, List.append_assoc] at hqueued'
  have hlength := hbefore.length_eq
  have hlength' := hall.length_eq
  rw [List.length_append] at hlength'
  -- The turns before are the first ones of all turns.
  obtain ⟨worked, rfl, hrest⟩ : ∃ worked, all = before ++ worked ∧
      s.queue ++ new.filterMap queued? = worked ++ left := by
    rcases List.append_eq_append_iff.mp hqueued' with
      ⟨worked, hworked, hrest⟩ | ⟨gap, hgap, hrest⟩
    · exact ⟨worked, hworked, hrest⟩
    · obtain rfl : gap = [] := by
        refine List.length_eq_zero_iff.mp ?_
        have := congrArg List.length hgap
        rw [List.length_append] at this
        omega
      exact ⟨[], by simpa using hgap.symm, by simpa using hrest.symm⟩
  refine ⟨worked, left, hrest, ?_, fun hrun => (hleft hrun).symm⟩
  have := List.forall₂_drop_append _ _ _ hall
  rwa [← hlength, List.drop_left] at this

/-! ## The next call -/

variable [BEq C]

omit [BEq C] in
theorem upon_works (hs : s.status = .running) (hw : call.works = true) (hq : s.queue ≠ []) :
    (s.upon call).status = .running ∧ (s.upon call).queue ≠ [] := by
  cases call with
  | send event =>
    simp only [upon, hs, reduceCtorEq, if_false]
    exact ⟨hs, List.concat_ne_nil _ _⟩
  | flush => exact ⟨hs, hq⟩
  | advance ms => exact ⟨hs, hq⟩
  | _ => cases hw

/-- A call that works off the queue begins with a turn. -/
theorem begun_of_works (hs : s.status = .running) (hw : call.works = true) :
    ∃ tasks, s.begun call = ⟨.drain :: tasks, s.upon call⟩ := by
  cases call with
  | send event => exact ⟨[], by simp [begun, hs]⟩
  | flush => exact ⟨[], by simp [begun, hs, upon]⟩
  | advance ms => exact ⟨[.pass ms], by simp [begun, hs, upon]⟩
  | _ => cases hw

/-- If something waits, a turn is seen in the next call that works off the queue. -/
theorem after_works_seen (hc : Current s) (hs : s.status = .running) (hw : call.works = true)
    (hq : s.queue ≠ []) (h : s.after fuel call = some t) :
    ∃ l, t.seen = s.seen ++ l ∧ ∃ o ∈ l, o.isTurn = true := by
  have hreach := after_reaches h
  obtain ⟨tasks, hbegun⟩ := begun_of_works hs hw
  obtain ⟨hstatus, hqueue⟩ := upon_works hs hw hq
  obtain ⟨sent, hsent⟩ : s.seen <+: (s.upon call).seen := upon_seen (by rintro rfl; cases hw)
  have hcurrent := hc.upon call hstatus
  rw [hbegun] at hreach
  generalize s.upon call = v at *
  obtain ⟨l, hl, hturn⟩ := turn_seen v
  obtain ⟨o, ho, hoturn⟩ := hturn ((collect_frame v).status.trans hstatus)
    (by rw [collect_eq]; exact List.append_ne_nil_of_left_ne_nil hqueue _)
    (by rw [(collect_frame v).snapshot]; exact Option.isSome_iff_ne_none.mp hcurrent)
  -- The first step is a turn, and what follows adds to what was seen.
  have hfirst : v.turn.session.seen <+: t.seen := by
    rcases Relation.ReflTransGen.cases_head hreach with heq | ⟨q, hn, hrest⟩
    · cases heq
    · have hlast := (Point.Reaches.strides hrest).seen_extends
      cases hn with
      | idle ht => rw [ht]; exact hlast
      | again ht => rw [ht]; exact hlast
      | failed ht => rw [ht]; exact hlast
  obtain ⟨rest, hrest⟩ := hfirst
  refine ⟨sent ++ l ++ rest, ?_, o, by simp [ho], hoturn⟩
  rw [← hrest, hl, ← hsent]
  simp

omit [BEq C] in
theorem post_queue (s : Session C E A) (number : Nat) (event : Event) :
    (s.post number event).queue = s.queue := by
  unfold post accept
  split
  · rfl
  · split <;> rfl

theorem after_pauses (hs : s.status = .running) (hp : call.pauses = true)
    (h : s.after fuel call = some t) : t.status = .running ∧ t.queue = s.queue := by
  cases call with
  | start =>
    simp only [after, start, hs, Option.map_some, Option.some.injEq, current_session] at h
    exact h ▸ ⟨hs, rfl⟩
  | post number event =>
    cases h
    exact ⟨(post_frame s number event).status.trans hs, post_queue s number event⟩
  | subscribe => cases h; exact ⟨hs, rfl⟩
  | unsubscribe listener => cases h; exact ⟨hs, rfl⟩
  | clock time => cases h; exact ⟨hs, rfl⟩
  | _ => cases hp

theorem afterAll_pauses {calls : List Call} (hs : s.status = .running)
    (hp : ∀ call ∈ calls, call.pauses = true) (h : s.afterAll fuel calls = some t) :
    t.status = .running ∧ t.queue = s.queue := by
  induction calls generalizing s with
  | nil => cases h; exact ⟨hs, rfl⟩
  | cons call calls ih =>
    rw [afterAll, List.foldlM_cons] at h
    obtain ⟨u, hu, h⟩ := Option.bind_eq_some_iff.mp h
    obtain ⟨hus, huq⟩ := after_pauses hs (hp call List.mem_cons_self) hu
    obtain ⟨hts, htq⟩ := ih hus (fun call hcall => hp call (List.mem_cons_of_mem _ hcall)) h
    exact ⟨hts, htq.trans huq⟩

/-- What happens between a session and the end of the next call of its that works off the queue,
where `new` is seen. -/
structure Resumed (s t : Session C E A) (new : List (Observation C E))
    (worked left : List Queued) : Prop where
  seen : t.seen = s.seen ++ new
  /-- What waited has its turn before what comes to the queue later, in this order. -/
  order : s.queue ++ new.filterMap queued? = worked ++ left
  turns : List.Forall₂ Observation.Turn.Of (Observation.turns s.handles new) worked
  /-- If something waited, the first of it has had its turn. -/
  first : s.queue ≠ [] → worked ≠ []
  /-- What has had no turn still waits, if the session runs. -/
  rest : t.status = .running → t.queue = left

/-- What waits is taken up by the next call that works off the queue, before all that comes
later. If the call succeeds and the session still runs, all of it has had its turn. -/
theorem Run.resumes {m : Machine C E A} {calls pauses : List Call} (h : Run m calls s)
    (kept : .takeTrace ∉ calls) (hs : s.status = .running)
    (hp : ∀ call ∈ pauses, call.pauses = true) (hw : call.works = true)
    (hu : s.afterAll fuel pauses = some u) (ht : u.after fuel call = some t) :
    ∃ new worked left, Resumed s t new worked left ∧
      (u.worksOff fuel call = some t → t.status = .running → left = []) := by
  have hpauses : .takeTrace ∉ pauses := fun hmem => nomatch hp _ hmem
  have hcall : call ≠ .takeTrace := by rintro rfl; cases hw
  have hrun := h.append hu
  obtain ⟨hustatus, huqueue⟩ := afterAll_pauses hs hp hu
  obtain ⟨before, hbefore⟩ := afterAll_seen hu hpauses
  obtain ⟨after, hafter⟩ := after_seen ht hcall
  have hseen : t.seen = s.seen ++ (before ++ after) := by
    rw [← hafter, ← hbefore, List.append_assoc]
  have hkept : .takeTrace ∉ calls ++ pauses ++ [call] := by
    simp [kept, hpauses, Ne.symm hcall]
  obtain ⟨worked, left, horder, hturns, hleft⟩ :=
    (h.inOrder kept).between ((hrun.call ht).inOrder hkept) (by rw [hs]; decide) hseen
  have hrest : t.status = .running → t.queue = left := fun hr => hleft (by rw [hr]; decide)
  refine ⟨before ++ after, worked, left, ⟨hseen, horder, hturns, fun hq => ?_, hrest⟩,
    fun hok hr => ?_⟩
  · obtain ⟨l, hl, o, ho, hturn⟩ := after_works_seen hrun.current hustatus hw (huqueue ▸ hq) ht
    obtain rfl := List.append_cancel_left (hafter.trans hl)
    rintro rfl
    have hnil := List.forall₂_nil_right_iff.mp hturns
    exact turns_ne_nil hturn (List.mem_append_right before ho) _ hnil
  · rw [← hrest hr]
    exact (worksOff_settled hrun.current hok hr).queue

end Session

end Statechart
