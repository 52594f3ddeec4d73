import Statechart.Proofs.Session.Observed
import Statechart.Proofs.Session.Strides

/-!
# Events come to their turn in the order they came

Three sources feed the one queue of a session: what is sent, what timers deliver, and what
actors post. The first two are put in the queue at once, posts wait in the mailbox until it is
collected. The invariant of sessions (`InOrder`) follows an event from its source to its turn:
all that was ever put in the queue is what had its turn, and behind it what still waits; each
event had one turn, in which it was dropped if it was the post of an actor none of whose
invocation runs then, and else given to the machine. Calls keep it stride by stride, whether
macrosteps fail or not.

* `InOrder.next`: what is seen next.
* `InOrder.aside`, `InOrder.arrive`, `InOrder.collect`, `InOrder.take`: the four kinds of changes.
* `InOrder.stride`: every stride.
-/
namespace Statechart

def Call.sent? : Call → Option Event
  | .send event => some event
  | _ => none

/-- Whether a turn is that of an item: its event is dropped if it has a sender of which no actor
runs, and handled else. -/
structure Observation.Turn.Of (turn : Observation.Turn) (item : Queued) : Prop where
  event : turn.event = item.event
  handled : turn.handled = true ↔ ∀ id, item.sender = some id → ∃ h ∈ turn.running, h.id = id

theorem Observation.arrival {C E : Type} {o : Observation C E} {event : Event}
    (h : o.arrived? = some event) {seen : List (Observation C E)}
    (he : seen = [o, .queued (.external event)]) :
    seen.filterMap arrived? = [event] ∧ seen.filterMap Observation.sent? = o.sent?.toList ∧
      seen.filterMap queued? = [.external event] ∧ seen.filterMap posted? = [] ∧
      ∀ l, turns l seen = [] ∧ runningAfter l seen = l := by
  cases o with
  | sent e => cases h; subst he; exact ⟨rfl, rfl, rfl, rfl, fun _ => ⟨rfl, rfl⟩⟩
  | fired timer => cases h; subst he; exact ⟨rfl, rfl, rfl, rfl, fun _ => ⟨rfl, rfl⟩⟩
  | _ => cases h

/-- What is told by posts being put in the queue. -/
theorem Observation.collected {C E : Type} (l : List Event) {seen : List (Observation C E)}
    (he : seen = l.map fun e => .queued (.posted e)) :
    seen.filterMap arrived? = [] ∧ seen.filterMap Observation.sent? = [] ∧
      seen.filterMap queued? = l.map .posted ∧ seen.filterMap posted? = [] ∧
      ∀ handles, turns handles seen = [] ∧ runningAfter handles seen = handles := by
  subst he
  induction l with
  | nil => exact ⟨rfl, rfl, rfl, rfl, fun _ => ⟨rfl, rfl⟩⟩
  | cons e l ih =>
    obtain ⟨harr, hsent, hqueued, hposted, hturns⟩ := ih
    exact ⟨harr, hsent, congrArg (Queued.posted e :: ·) hqueued, hposted, hturns⟩

namespace Session

open Observation

variable {C E A : Type} {m : Machine C E A} {s t : Session C E A} {sends : List Event}

/-- Events come to their turn in the order they came, where `sends` were sent by calls. -/
structure InOrder (sends : List Event) (s : Session C E A) : Prop where
  /-- The actors that run are those that were seen to start and not to stop. -/
  running : runningAfter [] s.seen = s.handles
  /-- What is sent is taken in the order of the calls, until the session has ended. -/
  sent : ∃ ignored, sends = s.seen.filterMap Observation.sent? ++ ignored ∧
    (s.status ≠ .stopped → ignored = [])
  /-- What is sent and what timers deliver is put in the queue in the order it comes. -/
  arrived : (s.seen.filterMap queued?).filter (·.sender.isNone) =
    (s.seen.filterMap arrived?).map .external
  /-- Posts are put in the queue in their order; the last of them may still be in the mailbox. -/
  posted : (s.seen.filterMap queued?).filter (·.sender.isSome) ++ s.mailbox.map .posted =
    (s.seen.filterMap posted?).map fun post => .posted (mail post)
  /-- What is in the queue has its turn in that order, until the session has ended. -/
  turns : ∃ worked waiting, s.seen.filterMap queued? = worked ++ waiting ∧
    List.Forall₂ Observation.Turn.Of (turns [] s.seen) worked ∧
    (s.status ≠ .stopped → waiting = s.queue)

theorem inOrder_ofMachine (m : Machine C E A) (name : String) (journalLimit : Option Nat) :
    InOrder [] (ofMachine m name journalLimit) where
  running := rfl
  sent := ⟨[], rfl, fun _ => rfl⟩
  arrived := rfl
  posted := rfl
  turns := ⟨[], [], rfl, .nil, fun _ => rfl⟩

namespace InOrder

/-- How the order goes on with what is seen next: `items` have their turns then, and `rest` is
what is left in the queue. -/
theorem next (h : InOrder sends s) (items rest : List Queued) {seen : List (Observation C E)}
    (hseen : t.seen = s.seen ++ seen) (hrunning : t.handles = runningAfter s.handles seen)
    (hsent : s.status = .stopped → seen.filterMap Observation.sent? = [])
    (harrived : (seen.filterMap queued?).filter (·.sender.isNone) =
      (seen.filterMap arrived?).map .external)
    (hposted : (seen.filterMap queued?).filter (·.sender.isSome) ++ t.mailbox.map .posted =
      s.mailbox.map .posted ++ (seen.filterMap posted?).map fun post => .posted (mail post))
    (hitems : List.Forall₂ Observation.Turn.Of (Observation.turns s.handles seen) items)
    (hended : s.status = .stopped → items = [])
    (hqueue : s.status ≠ .stopped → s.queue ++ seen.filterMap queued? = items ++ rest)
    (hrest : t.status ≠ .stopped → s.status ≠ .stopped ∧ t.queue = rest) :
    InOrder (sends ++ seen.filterMap Observation.sent?) t where
  running := by rw [hseen, runningAfter_append, h.running, hrunning]
  sent := by
    obtain ⟨ignored, he, hi⟩ := h.sent
    rw [hseen, List.filterMap_append]
    by_cases hs : s.status = .stopped
    · refine ⟨ignored, ?_, fun ht => absurd hs (hrest ht).1⟩
      rw [hsent hs, List.append_nil, List.append_nil, he]
    · exact ⟨[], by rw [he, hi hs, List.append_nil, List.append_nil], fun _ => rfl⟩
  arrived := by
    rw [hseen, List.filterMap_append, List.filterMap_append, List.filter_append, List.map_append,
      h.arrived, harrived]
  posted := by
    rw [hseen, List.filterMap_append, List.filterMap_append, List.filter_append, List.map_append,
      List.append_assoc, hposted, ← List.append_assoc, h.posted]
  turns := by
    obtain ⟨worked, waiting, hq, hw, hwaiting⟩ := h.turns
    have hturns : List.Forall₂ Observation.Turn.Of (Observation.turns [] t.seen)
        (worked ++ items) := by
      rw [hseen, turns_append, h.running]
      exact List.rel_append hw hitems
    have hqueued : t.seen.filterMap queued? = worked ++ (waiting ++ seen.filterMap queued?) := by
      rw [hseen, List.filterMap_append, hq, List.append_assoc]
    by_cases hs : s.status = .stopped
    · refine ⟨_, waiting ++ seen.filterMap queued?, ?_, hturns, fun ht => absurd hs (hrest ht).1⟩
      rw [hqueued, hended hs, List.append_nil]
    · refine ⟨_, rest, ?_, hturns, fun ht => (hrest ht).2.symm⟩
      rw [hqueued, hwaiting hs, hqueue hs, List.append_assoc]

/-- What does not concern the queue. -/
theorem aside (h : InOrder sends s) {seen : List (Observation C E)} (ha : Aside s seen t) :
    InOrder sends t := by
  have hnext := h.next [] s.queue ha.seen_eq ha.handles_eq (fun _ => sent_aside ha.aside)
    (by rw [queued_aside ha.aside, arrived_aside ha.aside]; rfl)
    (by rw [queued_aside ha.aside, ha.mailbox_eq, List.map_append, List.map_map]; rfl)
    (by rw [turns_aside ha.aside]; exact .nil) (fun _ => rfl)
    (fun _ => by rw [queued_aside ha.aside, List.append_nil, List.nil_append]) ha.queue_eq
  rwa [sent_aside ha.aside, List.append_nil] at hnext

theorem ignore (h : InOrder sends s) (hs : s.status = .stopped) (event : Event) :
    InOrder (sends ++ [event]) s where
  running := h.running
  sent := by
    obtain ⟨ignored, he, -⟩ := h.sent
    exact ⟨ignored ++ [event], by rw [he, List.append_assoc], fun hn => absurd hs hn⟩
  arrived := h.arrived
  posted := h.posted
  turns := h.turns

/-- An event comes from outside of the actors. -/
theorem arrive (h : InOrder sends s) (hs : s.status ≠ .stopped) {o : Observation C E}
    {event : Event} (ho : o.arrived? = some event) :
    InOrder (sends ++ o.sent?.toList) ((s.note o).enqueue (.external event)) := by
  have hseen : ((s.note o).enqueue (.external event)).seen =
      s.seen ++ [o, .queued (.external event)] := by simp [enqueue, seen, note]
  obtain ⟨harr, hsent, hqueued, hposted, hturns⟩ := Observation.arrival ho rfl
  have hnext := h.next [] (s.queue ++ [.external event]) hseen (hturns _).2.symm
    (fun h => absurd h hs) (by rw [hqueued, harr]; rfl)
    (by rw [hqueued, hposted]; exact (List.append_nil _).symm)
    (by rw [(hturns _).1]; exact .nil) (fun _ => rfl) (fun _ => by rw [hqueued]; rfl)
    fun _ => ⟨hs, rfl⟩
  rwa [hsent] at hnext

theorem sender_of_mailbox (h : InOrder sends s) :
    ∀ item ∈ s.mailbox.map Queued.posted, item.sender.isSome = true := by
  intro item hm
  have hp : item ∈ (s.seen.filterMap posted?).map fun post => .posted (mail post) :=
    h.posted ▸ List.mem_append_right _ hm
  obtain ⟨post, -, rfl⟩ := List.mem_map.mp hp
  rfl

/-- Posts are moved from the mailbox to the queue. -/
theorem collect (h : InOrder sends s) : InOrder sends s.collect := by
  have hsender := h.sender_of_mailbox
  have hnone : (s.mailbox.map Queued.posted).filter (·.sender.isNone) = [] :=
    List.filter_eq_nil_iff.mpr fun item hm => by
      rw [Option.isNone_iff_eq_none]; exact Option.isSome_iff_ne_none.mp (hsender item hm)
  have hsome : (s.mailbox.map Queued.posted).filter (·.sender.isSome) =
      s.mailbox.map Queued.posted := List.filter_eq_self.mpr hsender
  obtain ⟨harr, hsent, hqueued, hposted, hturns⟩ :=
    Observation.collected (C := C) (E := E) s.mailbox rfl
  have hseen : s.collect.seen = s.seen ++ s.mailbox.map fun e => .queued (.posted e) := by
    simp [collect_eq, seen]
  have hframe := collect_frame s
  have hnext := h.next [] (s.queue ++ s.mailbox.map .posted) hseen
    (hframe.handles.trans (hturns _).2.symm) (fun _ => hsent) (by rw [hqueued, hnone, harr]; rfl)
    (by rw [hqueued, hsome, hposted, collect_eq]; rfl)
    (by rw [(hturns _).1]; exact .nil) (fun _ => rfl) (fun _ => by rw [hqueued]; rfl)
    fun hs => ⟨hframe.status ▸ hs, by rw [collect_eq]⟩
  rwa [hsent, List.append_nil] at hnext

/-- The event at the head of the queue has its turn. -/
theorem take (h : InOrder sends s) (hs : s.status ≠ .stopped) {item : Queued} {rest : List Queued}
    (hq : s.queue = item :: rest) {o : Observation C E} {turn : Observation.Turn}
    (ho : o.turn? s.handles = some turn) (hturn : turn.Of item) :
    InOrder sends ({ s with queue := rest }.note o) := by
  have htold : [o].filterMap arrived? = [] ∧ [o].filterMap Observation.sent? = [] ∧
      [o].filterMap queued? = [] ∧ [o].filterMap posted? = [] ∧
      runningAfter s.handles [o] = s.handles := by
    cases o with
    | dropped _ => exact ⟨rfl, rfl, rfl, rfl, rfl⟩
    | handled _ => exact ⟨rfl, rfl, rfl, rfl, rfl⟩
    | _ => cases ho
  obtain ⟨harr, hsent, hqueued, hposted, hrunning⟩ := htold
  have hnext := h.next [item] rest (seen_note { s with queue := rest } o) hrunning.symm
    (fun _ => hsent) (by rw [hqueued, harr]; rfl)
    (by rw [hqueued, hposted]; exact (List.append_nil _).symm)
    (by rw [Observation.turns, ho]; exact .cons hturn .nil) (fun h => absurd h hs)
    (fun _ => by rw [hqueued, hq, List.append_nil]; rfl) fun _ => ⟨hs, rfl⟩
  rwa [hsent, List.append_nil] at hnext

end InOrder

/-! ## Strides -/

section Stride

variable [BEq C]

omit [BEq C] in
/-- An event is dropped if it has a sender of which no actor runs. -/
theorem drops_eq_false_iff {item : Queued} :
    s.drops item = false ↔ ∀ id, item.sender = some id → ∃ h ∈ s.handles, h.id = id := by
  unfold drops hasActor handles
  cases item.sender with
  | none => simp
  | some id => simp

namespace InOrder

/-- An event that is handled has its turn; what follows does not concern the queue. -/
theorem handle (h : InOrder sends s) (hs : s.status ≠ .stopped) {item : Queued}
    {rest : List Queued} (hq : s.queue = item :: rest) (hd : s.drops item = false)
    (snapshot : Snapshot C) :
    InOrder sends (({ s with queue := rest }.handle snapshot item.event).session) := by
  have hturn := h.take hs hq (o := .handled item.event) rfl
    ⟨rfl, by simpa using drops_eq_false_iff.mp hd⟩
  obtain ⟨k, hk⟩ := noteEffects_aside ({ s with queue := rest }.note (.handled item.event))
    (s.machine.step snapshot item.event .live).effects
  unfold Session.handle
  dsimp only
  split
  · exact hturn.aside hk
  · obtain ⟨k', hk'⟩ := apply_aside _ _
    exact (hturn.aside hk).aside hk'

theorem turn (h : InOrder sends s) : InOrder sends s.turn.session := by
  have hc := h.collect
  have hstopped (hs : s.collect.status = .running) : s.collect.status ≠ .stopped := by
    rw [hs]; decide
  have ht := s.took
  generalize s.turn = turn at ht ⊢
  cases ht with
  | idle _ => exact hc
  | @dropped item rest snapshot hs hq hd _ =>
    have hd : ¬s.collect.drops item = false := by rw [hd]; decide
    rw [drops_eq_false_iff] at hd
    exact hc.take (hstopped hs) hq (o := .dropped item) rfl
      ⟨rfl, iff_of_false Bool.false_ne_true hd⟩
  | @handled item rest snapshot hs hq hd _ => exact hc.handle (hstopped hs) hq hd snapshot

/-- Every stride keeps events in order. -/
theorem stride (h : InOrder sends s) (hst : Stride s t) : InOrder sends t := by
  cases hst with
  | unstarted hs he =>
    obtain ⟨k, hk⟩ := noteEffects_aside s (s.machine.startStep .live).effects
    exact h.aside hk
  | @started step hs he =>
    obtain ⟨k, hk⟩ := noteEffects_aside s (s.machine.startStep .live).effects
    have hstatus := (noteEffects_frame s (s.machine.startStep .live).effects).status
    have hrun : Aside (s.noteEffects (s.machine.startStep .live).effects) []
        { s.noteEffects (s.machine.startStep .live).effects with status := .running } :=
      .of_eq rfl rfl rfl rfl fun _ => by rw [hstatus, hs]; decide
    obtain ⟨l, hl⟩ := apply_aside
      { s.noteEffects (s.machine.startStep .live).effects with status := .running } step
    exact ((h.aside hk).aside hrun).aside hl
  | turn => exact h.turn
  | @fired limit timer timers hs ht =>
    have hk : Aside s [] { s with timers } := .of_eq rfl rfl rfl rfl id
    have hs : s.status ≠ .stopped := by rw [hs]; decide
    have := (h.aside hk).arrive hs (o := .fired timer) rfl
    rwa [show (Observation.fired (C := C) (E := E) timer).sent?.toList = [] from rfl,
      List.append_nil] at this
  | waited _ => exact h.aside (.of_eq rfl rfl rfl rfl id)

omit [BEq C] in
/-- What a call does first keeps events in order, if it leaves the trace. -/
theorem upon {calls : List Call} (h : InOrder (calls.filterMap Call.sent?) s) {call : Call}
    (kept : call ≠ .takeTrace) :
    InOrder ((calls ++ [call]).filterMap Call.sent?) (s.upon call) := by
  rw [List.filterMap_append]
  cases call with
  | send event =>
    dsimp only [Session.upon]
    split
    · rename_i hs; exact h.ignore hs event
    · rename_i hs; exact h.arrive hs (o := .sent event) rfl
  | stop =>
    obtain ⟨k, hk⟩ := stop_aside s
    exact (List.append_nil (calls.filterMap Call.sent?)).symm ▸ h.aside hk
  | post number event =>
    obtain ⟨k, hk⟩ := post_aside s number event
    exact (List.append_nil (calls.filterMap Call.sent?)).symm ▸ h.aside hk
  | takeTrace => exact absurd rfl kept
  | _ =>
    exact (List.append_nil (calls.filterMap Call.sent?)).symm ▸
      h.aside (.of_eq rfl rfl rfl rfl id)

end InOrder

end Stride

end Session

end Statechart
