import Statechart.Proofs.Session.Prompt

/-!
# What a stop leaves undone

A session that is stopped leaves its states as a transition does: it runs their exit actions, the
deepest first, and these ask for the same commands. A macrostep that is taken over has its
commands carried out, so that an event sent to an actor that runs at that place is received. A
stop carries nothing out and stops all actors at once: what their states send them at the very end
never reaches them.

* `During.numbered`: the numbers of actors, all the time.
* `answered_apply`: a macrostep that is taken over.
* `conveyed_stop`: a stop.
* `During.farewell`: one against the other.
* `stop_drops_last_strike`: a session whose stop leaves something undone.
-/
namespace Statechart

/-- What commands deliver that are carried out one after the other: each event that is sent to an
invocation with an actor at that place. -/
def Resources.deliveries : Resources → List Command → List (String × Event)
  | _, [] => []
  | r, command :: commands =>
    let rest := (r.after command).deliveries commands
    match command with
    | .sendTo id event => if id ∈ r.running then (id, event) :: rest else rest
    | _ => rest

def Sent.request (s : Sent) : String × Event := (s.actor, s.event)

/-- The actor and the event that must have been asked for. -/
def Reception.request (r : Reception) : String × Event := (r.handle.id, r.event)

theorem Sent.map_request {sent : List Sent} {receptions : List Reception}
    (h : List.Forall₂ Sent.Meets sent receptions) :
    sent.map Sent.request = receptions.map Reception.request := by
  induction h with
  | nil => rfl
  | cons hmeets _ ih =>
    rw [List.map_cons, List.map_cons, ih, Sent.request, Reception.request, hmeets.id, hmeets.event]

/-! ## The commands of an exit -/

theorem Phase.known_of_mem_exit {C E A : Type} (registry : Registry C E A) {c : Chart} {n : Nat}
    {command : Command} (h : command ∈ (Phase.exit n).commands c) : command.Known registry := by
  rw [Phase.commands, Action.requests_eq] at h
  simp only [Command.onExit, List.mem_append, List.mem_map] at h
  rcases h with ⟨x, -, rfl⟩ | h | ⟨i, -, rfl⟩
  · trivial
  · split at h
    · exact absurd h List.not_mem_nil
    · rw [List.mem_singleton.mp h]; trivial
  · trivial

/-- Leaving all states asks for what leaving each of them in a macrostep asks for, the deepest
first. -/
theorem Machine.exitStep_commands {C E A : Type} {m : Machine C E A} {s : Snapshot C} {mode : Mode}
    {step : Macrostep C} (h : (m.exitStep s mode).result = .ok step) :
    step.commands =
      s.configuration.toList.reverse.flatMap fun n => (Phase.exit n).commands m.chart := by
  obtain ⟨y, hy, rfl⟩ := outcome_ok h
  have hrun : (s.configuration.toList.reverse.map Phase.exit).foldlM
      (Phase.run m.chart m.registry mode .stop) (execution s : Execution C E) = .ok y := by
    rw [List.foldlM_map]; exact hy
  have hperforms : Performs m.chart m.registry s.configuration [] (execution s : Execution C E) :=
    .begin rfl rfl rfl
  have hcommands := (hperforms.foldlM _ hrun).written.2.2
  rwa [List.nil_append, List.flatMap_map] at hcommands

namespace Session

open Observation

variable {C E A : Type} {m : Machine C E A} {s t : Session C E A}

/-! ## Numbers of actors -/

namespace Numbered

theorem of_no_actors (h : s.handles = []) : Numbered s :=
  ⟨by rw [h]; exact .nil, fun a ha => by rw [h] at ha; cases ha⟩

theorem teardown (s : Session C E A) : Numbered s.teardown := of_no_actors (by rw [teardown_eq]; rfl)

theorem foldl_execute (context : C) : ∀ (commands : List Command) {s : Session C E A},
    Numbered s → Numbered (commands.foldl (Session.execute context) s)
  | [], _, h => h
  | command :: commands, _, h => foldl_execute context commands (h.execute command)

theorem apply (h : Numbered s) (step : Macrostep C) : Numbered (s.apply step) := by
  obtain ⟨t, ht, he⟩ := apply_eq s step
  have hn := ht.numbered (h.foldl_execute step.snapshot.context step.commands)
  rw [he]
  split
  · exact .teardown _
  · exact ⟨hn.nodup, hn.lt⟩

theorem stop (h : Numbered s) : Numbered s.stop.session := by
  unfold Session.stop
  split
  · exact h
  · exact ⟨h.nodup, h.lt⟩
  · exact .teardown s
  · dsimp only
    split <;> exact .teardown _

theorem upon (h : Numbered s) (call : Call) : Numbered (s.upon call) := by
  cases call with
  | send event =>
    dsimp only [Session.upon]
    split
    · exact h
    · exact ((note_frame _ _).trans (enqueue_frame _ _)).numbered h
  | stop => exact h.stop
  | post number event => exact (post_frame s number event).numbered h
  | _ => exact ⟨h.nodup, h.lt⟩

variable [BEq C]

theorem turn (h : Numbered s) : Numbered s.turn.session := by
  have hc := (collect_frame s).numbered h
  have hrest (rest : List Queued) : Numbered { s.collect with queue := rest } := ⟨hc.nodup, hc.lt⟩
  have ht := s.took
  generalize s.turn = turn at ht ⊢
  cases ht with
  | idle _ => exact hc
  | @dropped item rest snapshot _ _ _ _ => exact (note_frame _ _).numbered (hrest rest)
  | @handled item rest snapshot _ _ _ _ =>
    unfold Session.handle
    dsimp only
    split
    · exact ((note_frame _ _).trans (noteEffects_frame _ _)).numbered (hrest rest)
    · exact (((note_frame _ _).trans (noteEffects_frame _ _)).numbered (hrest rest)).apply _

/-- No stride gives a number twice. -/
theorem stride (h : Numbered s) (hst : Stride s t) : Numbered t := by
  cases hst with
  | unstarted _ _ => exact (noteEffects_frame _ _).numbered h
  | started _ _ =>
    have hn := (noteEffects_frame s (s.machine.startStep .live).effects).numbered h
    exact apply (s := { s.noteEffects (s.machine.startStep .live).effects with status := .running })
      ⟨hn.nodup, hn.lt⟩ _
  | turn => exact h.turn
  | fired _ _ => exact ((note_frame _ _).trans (enqueue_frame _ _)).numbered ⟨h.nodup, h.lt⟩
  | waited _ => exact ⟨h.nodup, h.lt⟩

end Numbered

/-- At every point of every run the actors that run have numbers of their own. -/
theorem During.numbered [BEq C] {calls : List Call} (h : During m calls s) : Numbered s :=
  h.of_stride (P := fun _ s => Numbered s) (fun _ _ => .of_no_actors rfl)
    (fun _ _ call ih => ih.upon call) fun _ _ _ ih hst => ih.stride hst

/-! ## Requests and what becomes of them -/

/-- From `s` to `t` these events are received, each by an actor of its invocation that runs then,
one after the other, and no others. -/
def Answered (requests : List (String × Event)) (s t : Session C E A) : Prop :=
  ∃ sent : List Sent, sent.map Sent.request = requests ∧ Conveyed sent s t

namespace Answered

variable {u : Session C E A} {requests more : List (String × Event)}

theorem trans (h : Answered requests s t) (h' : Answered more t u) :
    Answered (requests ++ more) s u := by
  obtain ⟨sent, rfl, hsent⟩ := h
  obtain ⟨later, rfl, hlater⟩ := h'
  exact ⟨sent ++ later, List.map_append, hsent.trans hlater⟩

theorem of_quiet (h : Conveyed [] s t) : Answered [] s t := ⟨[], rfl, h⟩

theorem eq (h : Answered requests s t) (h' : Answered more s t) : requests = more := by
  obtain ⟨sent, rfl, seen, hseen, -, hmeets⟩ := h
  obtain ⟨others, rfl, seen', hseen', -, hmeets'⟩ := h'
  obtain rfl := List.append_cancel_left (hseen.symm.trans hseen')
  rw [Sent.map_request hmeets, Sent.map_request hmeets']

end Answered

/-- Commands that are carried out deliver what is sent to actors that run. -/
theorem answered_foldl (context : C) : ∀ {commands : List Command} {s : Session C E A},
    Numbered s → (∀ command ∈ commands, command.Known s.machine.registry) →
    Answered (s.resources.deliveries commands) s (commands.foldl (execute context) s)
  | [], s, _, _ => .of_quiet (.of_calm (.of_trace (.refl s) rfl))
  | command :: commands, s, hs, hk => by
    have hnext : Numbered (s.execute context command) := hs.execute command
    have hknown : ∀ d ∈ commands, d.Known (s.execute context command).machine.registry := by
      rw [(execute_machine context s command).1]
      exact fun d hd => hk d (List.mem_cons_of_mem _ hd)
    have hrest := answered_foldl context hnext hknown
    rw [execute_resources hs (hk command List.mem_cons_self)] at hrest
    cases command with
    | sendTo id event =>
      have hfirst : Answered (([⟨∅, id, event⟩] : List Sent).filter
          (fun x => x.actor ∈ s.resources.running) |>.map Sent.request) s (s.deliver id event) :=
        ⟨_, rfl, conveyed_deliver ∅ s id event⟩
      have hall := hfirst.trans hrest
      rw [Resources.deliveries]
      by_cases hid : id ∈ s.resources.running
      · rw [List.filter_cons_of_pos (by simpa using hid)] at hall
        rw [if_pos hid]
        exact hall
      · rw [List.filter_cons_of_neg (by simpa using hid)] at hall
        rw [if_neg hid]
        exact hall
    | _ => exact (Answered.of_quiet (conveyed_execute (by nofun))).trans hrest

/-- So does a macrostep that is taken over. -/
theorem answered_apply (hs : Numbered s) {step : Macrostep C}
    (hk : ∀ command ∈ step.commands, command.Known s.machine.registry) :
    Answered (s.resources.deliveries step.commands) s (s.apply step) := by
  obtain ⟨t, ht, happly⟩ := apply_eq s step
  have hshown : Answered (s.resources.deliveries step.commands) s
      { t with snapshot := some step.snapshot } := by
    have := (answered_foldl step.snapshot.context hs hk).trans (.of_quiet (.of_calm ht))
    rwa [List.append_nil] at this
  rw [happly]
  split
  · have := hshown.trans (.of_quiet (.teardown _))
    rwa [List.append_nil] at this
  · exact hshown

/-- What can be seen of the stop of a session whose states can be left: what effects gave, and
the end of each actor. -/
theorem stop_seen (hs : s.status = .running) {snapshot : Snapshot C}
    (hc : s.snapshot = some snapshot) {step : Macrostep C}
    (hstep : (s.machine.exitStep snapshot .live).result = .ok step) :
    s.stop.answer = .ok () ∧ s.stop.session.seen = s.seen ++
      (s.machine.exitStep snapshot .live).effects.map (fun e => .effect e.1 e.2) ++
      s.handles.reverse.map fun h => .stopped h.close := by
  have hhandles := (noteEffects_frame s (s.machine.exitStep snapshot .live).effects).handles
  unfold Session.stop
  rw [hs, hc]
  dsimp only
  rw [hstep]
  refine ⟨rfl, ?_⟩
  rw [done, teardown_eq, hhandles, noteEffects_eq]
  simp [Session.seen]

/-- A stop delivers nothing. -/
theorem conveyed_stop (hs : s.status = .running) {snapshot : Snapshot C}
    (hc : s.snapshot = some snapshot) : Conveyed [] s s.stop.session := by
  have hconveyed := (Conveyed.of_calm (.noteEffects s
    (s.machine.exitStep snapshot .live).effects)).trans (.teardown _)
  unfold Session.stop
  rw [hs, hc]
  dsimp only
  split <;> exact hconveyed

/-- A stop runs the exit actions, but does not carry out what they ask for. At every point of
every run, if the session runs and its states can be left: leaving them asks for what leaving
each of them in a macrostep asks for; and a macrostep that is taken over with these commands has
every event that is sent to a running actor received by it, in order. The stop succeeds, shows
what effects gave and stops every actor once, the last started first; so it answers what the exit
actions have sent if and only if none of it was sent to an actor that runs at its place. -/
theorem During.farewell [BEq C] {calls : List Call} (hr : During m calls s)
    (hs : s.status = .running) {snapshot : Snapshot C} (hc : s.snapshot = some snapshot)
    {step : Macrostep C} (hstep : (s.machine.exitStep snapshot .live).result = .ok step) :
    step.commands = snapshot.configuration.toList.reverse.flatMap
        (fun n => (Phase.exit n).commands s.machine.chart) ∧
      Answered (s.resources.deliveries step.commands) s (s.apply step) ∧
      s.stop.answer = .ok () ∧
      s.stop.session.seen = s.seen ++
        (s.machine.exitStep snapshot .live).effects.map (fun e => .effect e.1 e.2) ++
        s.handles.reverse.map (fun h => .stopped h.close) ∧
      (Answered (s.resources.deliveries step.commands) s s.stop.session ↔
        s.resources.deliveries step.commands = []) := by
  have hcommands := Machine.exitStep_commands hstep
  have hknown : ∀ command ∈ step.commands, command.Known s.machine.registry := by
    rw [hcommands]
    intro command hcommand
    obtain ⟨n, -, hn⟩ := List.mem_flatMap.mp hcommand
    exact Phase.known_of_mem_exit _ hn
  obtain ⟨hanswer, hseen⟩ := stop_seen hs hc hstep
  have hquiet : Answered [] s s.stop.session := .of_quiet (conveyed_stop hs hc)
  exact ⟨hcommands, answered_apply hr.numbered hknown, hanswer, hseen,
    fun h => h.eq hquiet, fun h => h ▸ hquiet⟩

/-- A shop with a till, and a lamp where customers are served. At closing time the till is told
the sum and closed, and the lamp is dimmed after it was put out. -/
def shop : Definition := {
  key := "shop"
  initial := some "open"
  states := [
    { key := "open"
      initial := some "serving"
      exit := [.sendTo "till" { type := "CLOSE" }, .sendTo "lamp" { type := "DIM" }]
      invoke := [{ id := some "till", src := "iron" }]
      states := [
        { key := "serving"
          exit := [.sendTo "till" { type := "SUM" }]
          invoke := [{ id := some "lamp", src := "iron" }] }] }] }

def shopMachine : Machine Unit Unit Unit := Machine.buildD clappers () 10 shop

/-- Of the three events that closing time sends, the two for the till have someone to get them. -/
theorem farewell_shop : ∃ calls s snapshot step, During shopMachine calls s ∧
    s.status = .running ∧ s.snapshot = some snapshot ∧
    (s.machine.exitStep snapshot .live).result = .ok step ∧
    (s.resources.deliveries step.commands).map (fun x => (x.1, x.2.type)) =
      [("till", "SUM"), ("till", "CLOSE")] ∧
    step.commands = snapshot.configuration.toList.reverse.flatMap
        (fun n => (Phase.exit n).commands s.machine.chart) ∧
      Answered (s.resources.deliveries step.commands) s (s.apply step) ∧
      s.stop.answer = .ok () ∧
      s.stop.session.seen = s.seen ++
        (s.machine.exitStep snapshot .live).effects.map (fun e => .effect e.1 e.2) ++
        s.handles.reverse.map (fun h => .stopped h.close) ∧
      (Answered (s.resources.deliveries step.commands) s s.stop.session ↔
        s.resources.deliveries step.commands = []) := by
  have hrun : ((ofMachine shopMachine "shop" none).after 5 .start).any (fun s =>
      s.status = .running && s.snapshot.any fun snapshot =>
        (s.machine.exitStep snapshot .live).result.toOption.any fun step =>
          (s.resources.deliveries step.commands).map (fun x => (x.1, x.2.type)) =
            [("till", "SUM"), ("till", "CLOSE")]) = true := by decide +kernel
  obtain ⟨s, hafter, hall⟩ := (Option.any_eq_true _ _).mp hrun
  obtain ⟨hs, hall⟩ := Bool.and_eq_true_iff.mp hall
  obtain ⟨snapshot, hc, hall⟩ := (Option.any_eq_true _ _).mp hall
  obtain ⟨step, hstep, hdeliveries⟩ := exists_ok_of_any hall
  have hr : During shopMachine [.start] s := .rest (.call (.initial "shop" none) hafter)
  have hs := of_decide_eq_true hs
  exact ⟨_, s, snapshot, step, hr, hs, hc, hstep, of_decide_eq_true hdeliveries,
    During.farewell hr hs hc hstep⟩

/-- When the bell is stopped its last strike is lost: leaving the state sends it to a clapper
that runs, but the clapper is stopped without it. -/
theorem stop_drops_last_strike : ∃ s snapshot step, Run bellMachine [.start] s ∧
    s.status = .running ∧ s.snapshot = some snapshot ∧
    (s.machine.exitStep snapshot .live).result = .ok step ∧
    s.resources.deliveries step.commands = [("clapper", { type := "LAST" })] ∧
    ¬Answered (s.resources.deliveries step.commands) s s.stop.session := by
  have hrun : ((ofMachine bellMachine "bell" none).after 5 .start).any (fun s =>
      s.status = .running && s.snapshot.any fun snapshot =>
        (s.machine.exitStep snapshot .live).result.toOption.any fun step =>
          s.resources.deliveries step.commands = [("clapper", { type := "LAST" })]) = true := by
    decide +kernel
  obtain ⟨s, hafter, hall⟩ := (Option.any_eq_true _ _).mp hrun
  obtain ⟨hs, hall⟩ := Bool.and_eq_true_iff.mp hall
  obtain ⟨snapshot, hc, hall⟩ := (Option.any_eq_true _ _).mp hall
  obtain ⟨step, hstep, hdeliveries⟩ := exists_ok_of_any hall
  have hs := of_decide_eq_true hs
  have hdeliveries := of_decide_eq_true hdeliveries
  refine ⟨s, snapshot, step, .call (.initial "bell" none) hafter, hs, hc, hstep, hdeliveries,
    fun h => ?_⟩
  have hnil := h.eq (.of_quiet (conveyed_stop hs hc))
  rw [hdeliveries] at hnil
  cases hnil

end Session

end Statechart
