import Mathlib.Data.List.Nodup
import Statechart.Session.Calls

/-!
# What commands do to timers and actors

Of the timers of a session only their owners matter here, of the actors only the ids of their
invocations (`Resources`). Everything a session does outside of its commands leaves both alone
(`Frame`), and carrying out a command changes them as `Resources.after` says: an actor is found
by its id but taken out by its number, which is its own as long as numbers are given once
(`Numbered`).

* `execute_resources`: one command.
* `foldl_execute_resources`: the commands of a macrostep.
-/
namespace Statechart

/-- The owners of the timers that are pending, and the invocations whose actors run. -/
structure Resources where
  owners : List Nat := []
  running : List String := []

def Resources.after (r : Resources) : Command → Resources
  | .schedule owner _ _ => { r with owners := r.owners ++ [owner] }
  | .cancelTimers owner => { r with owners := r.owners.filter (· != owner) }
  | .invoke _ id _ => { r with running := r.running ++ [id] }
  | .stopActor id => { r with running := r.running.erase id }
  | .sendTo _ _ => r

/-- The source of an actor that is to be started is registered. -/
def Command.Known {C E A : Type} (registry : Registry C E A) : Command → Prop
  | .invoke _ _ src => (registry.actor? src).isSome = true
  | _ => True

namespace Session

variable {C E A : Type}

def handles (s : Session C E A) : List Handle := s.actors.map RunningActor.handle

def resources (s : Session C E A) : Resources where
  owners := s.timers.pending.map Timer.owner
  running := s.handles.map Handle.id

/-- No two actors that run have one number, and the next number is new. -/
structure Numbered (s : Session C E A) : Prop where
  nodup : (s.handles.map Handle.number).Nodup
  lt : ∀ h ∈ s.handles, h.number < s.started

/-! ## What leaves timers and actors alone -/

/-- `t` differs from `s` in events that wait, in what was seen and in what is noted down, and
in the states that actors are in. -/
structure Frame (s t : Session C E A) : Prop where
  machine : t.machine = s.machine
  status : t.status = s.status
  snapshot : t.snapshot = s.snapshot
  timers : t.timers = s.timers
  handles : t.handles = s.handles
  started : t.started = s.started

namespace Frame

variable {s t u : Session C E A}

theorem refl (s : Session C E A) : Frame s s := ⟨rfl, rfl, rfl, rfl, rfl, rfl⟩

theorem trans (h : Frame s t) (h' : Frame t u) : Frame s u :=
  ⟨h'.machine.trans h.machine, h'.status.trans h.status, h'.snapshot.trans h.snapshot,
    h'.timers.trans h.timers, h'.handles.trans h.handles, h'.started.trans h.started⟩

theorem foldl {α : Type} {f : Session C E A → α → Session C E A} (hf : ∀ s a, Frame s (f s a)) :
    ∀ (l : List α) (s : Session C E A), Frame s (l.foldl f s)
  | [], s => .refl s
  | a :: l, s => (hf s a).trans (foldl hf l (f s a))

theorem resources (h : Frame s t) : t.resources = s.resources := by
  unfold Session.resources
  rw [h.timers, h.handles]

theorem numbered (h : Frame s t) (hs : Numbered s) : Numbered t where
  nodup := by rw [h.handles]; exact hs.nodup
  lt a ha := by rw [h.started]; rw [h.handles] at ha; exact hs.lt a ha

end Frame

theorem note_frame (s : Session C E A) (o : Observation C E) : Frame s (s.note o) :=
  ⟨rfl, rfl, rfl, rfl, rfl, rfl⟩

theorem noteEffects_frame (s : Session C E A) (effects : List (String × E)) :
    Frame s (s.noteEffects effects) := .foldl (fun s _ => note_frame s _) effects s

theorem enqueue_frame (s : Session C E A) (item : Queued) : Frame s (s.enqueue item) :=
  ⟨rfl, rfl, rfl, rfl, rfl, rfl⟩

theorem takePost_frame (handle : Handle) (s : Session C E A) (event : Event) :
    Frame s (takePost handle s event) := ⟨rfl, rfl, rfl, rfl, rfl, rfl⟩

theorem accept_frame (s : Session C E A) (handle : Handle) (posts : List Event) :
    Frame s (s.accept handle posts) := by
  unfold accept
  split
  · exact .foldl (takePost_frame handle) posts s
  · exact .refl s

theorem stopRunning_frame (s : Session C E A) (a : RunningActor C A) :
    Frame s (s.stopRunning a) := (note_frame s _).trans (accept_frame _ _ _)

theorem collect_frame (s : Session C E A) : Frame s s.collect := by
  have first : Frame s { s with mailbox := [] } := ⟨rfl, rfl, rfl, rfl, rfl, rfl⟩
  exact first.trans (.foldl (fun s e => enqueue_frame s _) s.mailbox _)

theorem record_frame (s : Session C E A) (step : Macrostep C) : Frame s (s.record step) := by
  unfold record
  dsimp only
  split
  · exact ⟨rfl, rfl, rfl, rfl, rfl, rfl⟩
  · exact .refl s

theorem publish_frame (s : Session C E A) (snapshot : Snapshot C) :
    Frame s (s.publish snapshot) := .foldl (fun s _ => note_frame s _) s.listeners s

theorem post_frame (s : Session C E A) (number : Nat) (event : Event) :
    Frame s (s.post number event) := by
  unfold post
  split
  · exact .refl s
  · exact accept_frame s _ _

/-- An event changes the state of an actor, not its handle. -/
theorem deliver_frame (s : Session C E A) (id : String) (event : Event) :
    Frame s (s.deliver id event) := by
  unfold deliver
  split
  · exact .refl s
  · rename_i a _
    refine Frame.trans (t := { s with actors := s.actors.map fun b =>
      if b.handle.number = a.handle.number then
        { b with actor := (a.source.receive a.actor a.handle event).actor } else b }) ?_
      ((note_frame _ _).trans (accept_frame _ _ _))
    refine ⟨rfl, rfl, rfl, rfl, ?_, rfl⟩
    unfold handles
    rw [List.map_map]
    refine List.map_congr_left fun b _ => ?_
    rw [Function.comp_apply]
    split <;> rfl

/-! ## Starting and stopping actors -/

theorem startActor_frame (s : Session C E A) (context : C) (id : String)
    (source : ActorSource C A) : ∃ actor,
      Frame { s with
        started := s.started + 1
        actors := s.actors ++ [⟨{ number := s.started, id }, source, actor⟩] }
      (s.startActor context id source) := by
  obtain ⟨h1, h2, h3, h4, h5, h6⟩ := accept_frame
    ({ s with started := s.started + 1 }.note (.started { number := s.started, id } context))
    { number := s.started, id }
    (source.start (source.create context) { number := s.started, id }).posts
  refine ⟨(source.start (source.create context) { number := s.started, id }).actor,
    h1, h2, h3, h4, ?_, h6⟩
  simp only [handles, startActor, List.map_append]
  exact congrArg (· ++ _) h5

theorem stopActor_frame (s : Session C E A) (id : String) :
    s.actor? id = none ∧ s.stopActor id = s ∨
      ∃ a, s.actor? id = some a ∧
        Frame { s with actors := s.actors.filter fun b => b.handle.number != a.handle.number }
          (s.stopActor id) := by
  unfold stopActor
  split
  · rename_i h; exact .inl ⟨h, rfl⟩
  · rename_i a h; exact .inr ⟨a, h, stopRunning_frame _ a⟩

/-- Where numbers are unique, taking out the first actor of an invocation by its number takes
out its id once. -/
theorem erase_id_of_find? {id : String} {a : RunningActor C A} :
    ∀ {l : List (RunningActor C A)}, (l.map fun b => b.handle.number).Nodup →
      l.find? (fun b => b.handle.id == id) = some a →
      (l.filter fun b => b.handle.number != a.handle.number).map (fun b => b.handle.id) =
        (l.map fun b => b.handle.id).erase id
  | [], _, hf => by cases hf
  | b :: l, hn, hf => by
    rw [List.map_cons, List.nodup_cons] at hn
    rw [List.find?_cons] at hf
    cases hb : b.handle.id == id with
    | true =>
      rw [hb] at hf; cases hf
      have hrest : (l.filter fun x => x.handle.number != a.handle.number) = l :=
        List.filter_eq_self.mpr fun x hx => bne_iff_ne.mpr fun e =>
          hn.1 (e ▸ List.mem_map_of_mem (f := fun b => b.handle.number) hx)
      rw [List.filter_cons, bne_self_eq_false, if_neg Bool.false_ne_true, hrest, List.map_cons,
        beq_iff_eq.mp hb, List.erase_cons_head]
    | false =>
      rw [hb] at hf
      have ha : a.handle.number ≠ b.handle.number := fun e =>
        hn.1 (e ▸ List.mem_map_of_mem (f := fun b => b.handle.number)
          (List.mem_of_find?_eq_some hf))
      rw [List.filter_cons, if_pos (bne_iff_ne.mpr ha.symm), List.map_cons, List.map_cons,
        List.erase_cons_tail (by rw [hb]; decide), erase_id_of_find? hn.2 hf]

/-! ## Commands -/

section Execute

variable {context : C} {s : Session C E A}

theorem Numbered.startActor (hs : Numbered s) (id : String) (source : ActorSource C A) :
    Numbered (s.startActor context id source) := by
  obtain ⟨actor, hf⟩ := startActor_frame s context id source
  refine hf.numbered ⟨?_, fun h hh => ?_⟩
  · simp only [handles, List.map_append, List.map_cons, List.map_nil]
    refine List.nodup_append.mpr ⟨hs.nodup, List.nodup_singleton _, fun n hn k hk => ?_⟩
    obtain ⟨h, hh, rfl⟩ := List.mem_map.mp hn
    rw [List.mem_singleton.mp hk]
    exact Nat.ne_of_lt (hs.lt h hh)
  · simp only [handles, List.map_append, List.mem_append, List.map_cons, List.map_nil,
      List.mem_singleton] at hh
    rcases hh with hh | rfl
    · exact Nat.lt_succ_of_lt (hs.lt h hh)
    · exact Nat.lt_succ_self _

theorem Numbered.stopActor (hs : Numbered s) (id : String) : Numbered (s.stopActor id) := by
  obtain ⟨-, he⟩ | ⟨a, -, hf⟩ := stopActor_frame s id
  · rwa [he]
  · have hsub : (s.actors.filter fun b => b.handle.number != a.handle.number).Sublist s.actors :=
      List.filter_sublist
    exact hf.numbered ⟨((hsub.map RunningActor.handle).map Handle.number).nodup hs.nodup,
      fun h hh => hs.lt h ((hsub.map RunningActor.handle).subset hh)⟩

/-- Carrying out a command gives no number twice. -/
theorem Numbered.execute (hs : Numbered s) (command : Command) :
    Numbered (s.execute context command) := by
  cases command with
  | schedule owner event delayMs => exact ⟨hs.nodup, hs.lt⟩
  | cancelTimers owner => exact ⟨hs.nodup, hs.lt⟩
  | invoke owner id src =>
    dsimp only [Session.execute]
    split
    · exact hs
    · exact hs.startActor id _
  | stopActor id => exact hs.stopActor id
  | sendTo actor event => exact (deliver_frame s actor event).numbered hs

theorem stopActor_resources (hs : Numbered s) (id : String) :
    (s.stopActor id).resources = s.resources.after (.stopActor id) := by
  have hn : (s.actors.map fun b => b.handle.number).Nodup := by
    have := hs.nodup
    rwa [handles, List.map_map] at this
  obtain ⟨ha, he⟩ | ⟨a, ha, hf⟩ := stopActor_frame s id
  · have hm : id ∉ s.handles.map Handle.id := by
      intro hm
      obtain ⟨h, hh, hid⟩ := List.mem_map.mp hm
      obtain ⟨b, hb, rfl⟩ := List.mem_map.mp hh
      exact List.find?_eq_none.mp ha b hb (beq_iff_eq.mpr hid)
    rw [he]
    simp only [resources, Resources.after, List.erase_of_not_mem hm]
  · rw [hf.resources]
    have := erase_id_of_find? hn ha
    simp only [resources, handles, List.map_map, Resources.after, Resources.mk.injEq, true_and]
    exact this

/-- A command changes the resources as `Resources.after` says. -/
theorem execute_resources (hs : Numbered s) {command : Command}
    (hk : command.Known s.machine.registry) :
    (s.execute context command).resources = s.resources.after command := by
  cases command with
  | schedule owner event delayMs =>
    simp only [Session.execute, resources, Resources.after, Timers.schedule, List.map_append,
      List.map_cons, List.map_nil]
    rfl
  | cancelTimers owner =>
    simp only [Session.execute, resources, Resources.after, Timers.cancel, List.filter_map]
    rfl
  | invoke owner id src =>
    obtain ⟨source, hsrc⟩ := Option.isSome_iff_exists.mp hk
    obtain ⟨actor, hf⟩ := startActor_frame s context id source
    simp only [Session.execute, hsrc]
    rw [hf.resources]
    simp only [resources, handles, Resources.after, List.map_append, List.map_cons, List.map_nil]
  | stopActor id => exact stopActor_resources hs id
  | sendTo actor event => exact (deliver_frame s actor event).resources

theorem execute_machine (context : C) (s : Session C E A) (command : Command) :
    (s.execute context command).machine = s.machine ∧
      (s.execute context command).status = s.status := by
  cases command with
  | schedule owner event delayMs => exact ⟨rfl, rfl⟩
  | cancelTimers owner => exact ⟨rfl, rfl⟩
  | invoke owner id src =>
    dsimp only [Session.execute]
    split
    · exact ⟨rfl, rfl⟩
    · obtain ⟨actor, hf⟩ := startActor_frame s context id ‹_›
      exact ⟨hf.machine, hf.status⟩
  | stopActor id =>
    obtain ⟨-, he⟩ | ⟨a, -, hf⟩ := stopActor_frame s id
    · rw [Session.execute, he]; exact ⟨rfl, rfl⟩
    · exact ⟨hf.machine, hf.status⟩
  | sendTo actor event =>
    have hf := deliver_frame s actor event
    exact ⟨hf.machine, hf.status⟩

/-- The commands of a macrostep, one after the other. -/
theorem foldl_execute_resources (context : C) :
    ∀ {commands : List Command} {s : Session C E A}, Numbered s →
    (∀ command ∈ commands, command.Known s.machine.registry) →
    Numbered (commands.foldl (execute context) s) ∧
      (commands.foldl (execute context) s).resources =
        commands.foldl Resources.after s.resources
  | [], s, hs, _ => ⟨hs, rfl⟩
  | command :: commands, s, hs, hk => by
    have hk' : ∀ d ∈ commands, d.Known (s.execute context command).machine.registry := by
      rw [(execute_machine context s command).1]
      exact fun d hd => hk d (by simp [hd])
    obtain ⟨hn, hr⟩ := foldl_execute_resources context (hs.execute command) hk'
    rw [List.foldl_cons, List.foldl_cons, hr, execute_resources hs (hk command (by simp))]
    exact ⟨hn, rfl⟩

theorem foldl_execute_machine (context : C) : ∀ (commands : List Command) (s : Session C E A),
    (commands.foldl (execute context) s).machine = s.machine ∧
      (commands.foldl (execute context) s).status = s.status
  | [], s => ⟨rfl, rfl⟩
  | command :: commands, s => by
    obtain ⟨h1, h2⟩ := execute_machine context s command
    obtain ⟨h3, h4⟩ := foldl_execute_machine context commands (s.execute context command)
    exact ⟨h3.trans h1, h4.trans h2⟩

end Execute

end Session

end Statechart
