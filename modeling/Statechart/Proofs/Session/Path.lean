import Mathlib.Data.List.Chain
import Statechart.Proofs.Journal
import Statechart.Proofs.Session.LifeCycle
import Statechart.Proofs.Session.Turns

/-!
# The journal of a session is a path

A journal has only the macrosteps that made a difference, and one with a limit only the newest of
these. Yet nothing is missing between two of its steps: a macrostep that made no difference leaves
the configuration as it is (`step_value`), and with it the value that the next step begins at. So
each step begins where the one before it has ended, and the last one ends at the value of the
current snapshot. This holds stride by stride, whether calls succeed or fail.

* `Journal.LeadsTo.push`: one more step at the end.
* `Charted.apply`: a macrostep that is taken over.
* `Charted.upon`, `Charted.stride`: the beginning of a call, and every stride.
* `journal_path`: the journal after any calls.
-/
namespace Statechart

namespace Machine

variable {C E A : Type} [BEq C] {m : Machine C E A} {mode : Mode}

theorem startStep_value {step : Macrostep C} (h : (m.startStep mode).result = .ok step) :
    step.snapshot.value = .ofConfiguration m.chart Chart.root step.snapshot.configuration := by
  obtain ⟨x, y, -, -, rfl⟩ := startStep_ok h
  rfl

/-- A macrostep that reports no change shows the value from before. -/
theorem step_value {s : Snapshot C} {event : Event} {step : Macrostep C}
    (hs : s.value = .ofConfiguration m.chart Chart.root s.configuration)
    (h : (m.step s event mode).result = .ok step) :
    step.snapshot.value = .ofConfiguration m.chart Chart.root step.snapshot.configuration ∧
      (step.snapshot.changed = false → step.snapshot.value = s.value) := by
  rcases step_ok h with rfl | ⟨transitions, x, y, -, -, -, rfl⟩
  · exact ⟨hs, fun _ => rfl⟩
  · refine ⟨rfl, fun hchanged => ?_⟩
    have hsame : s.configuration = y.configuration := by
      simp only [finish, hasChanged, Bool.or_eq_false_iff] at hchanged
      exact bne_eq_false_iff_eq.mp hchanged.1.1
    rw [hs, hsame]
    rfl

end Machine

/-! ## Journals -/

namespace Journal

variable {j : Journal} {value : StateValue} {step : StepRecord}

/-- The journal is a path that leads to a value: each step begins where the one before it has
ended, the last ends at the value, and there are no more steps than the limit allows. -/
structure LeadsTo (j : Journal) (value : StateValue) : Prop where
  linked : j.steps.IsChain fun a b => a.after = b.before
  ends : ∀ last ∈ j.steps.getLast?, last.after = value
  bounded : ∀ n, j.limit = some n → j.steps.length ≤ n

theorem LeadsTo.of_nil (h : j.steps = []) (value : StateValue) : j.LeadsTo value where
  linked := h ▸ .nil
  ends last hlast := by rw [h] at hlast; cases hlast
  bounded n _ := by rw [h]; exact Nat.zero_le n

theorem push_ne_nil (h : j.limit ≠ some 0) (step : StepRecord) : (j.push step).steps ≠ [] := by
  unfold push
  split
  · exact List.append_ne_nil_of_right_ne_nil _ (List.cons_ne_nil _ _)
  · exact absurd ‹_› h
  · exact List.append_ne_nil_of_right_ne_nil _ (List.cons_ne_nil _ _)

/-- A step that begins where the path has led goes on with it, also when the oldest steps are
dropped. -/
theorem LeadsTo.push (h : j.LeadsTo step.before) : (j.push step).LeadsTo step.after := by
  have hlinked : ∀ k, ((j.steps.drop k) ++ [step]).IsChain fun a b => a.after = b.before :=
    fun k => (h.linked.drop k).append (.singleton step) fun last hlast first hfirst => by
      cases hfirst
      have hmem : last ∈ j.steps.getLast? := by
        rw [List.getLast?_drop] at hlast
        split at hlast
        · cases hlast
        · exact hlast
      exact h.ends last hmem
  unfold Journal.push
  split
  · rename_i hlimit
    exact ⟨hlinked 0, by simp, fun n hn => by cases hlimit.symm.trans hn⟩
  · rename_i hlimit
    have hnil := List.eq_nil_of_length_eq_zero (Nat.le_zero.mp (h.bounded 0 hlimit))
    exact .of_nil hnil _
  · rename_i n hlimit
    refine ⟨hlinked _, by simp, fun k hk => ?_⟩
    obtain rfl := Option.some.inj (hlimit.symm.trans hk)
    rw [List.length_append, List.length_drop, List.length_singleton]
    omega

theorem path_length (j : Journal) :
    j.path.length = if j.steps = [] then 0 else j.steps.length + 1 := by
  unfold path
  cases j.steps with
  | nil => rfl
  | cons first rest => simp [Nat.add_comm]

/-- Entries of the path that follow each other are the ends of one step. -/
theorem LeadsTo.path_getElem (h : j.LeadsTo value) {i : Nat} (hi : j.steps[i]? = some step) :
    j.path[i]? = some step.before ∧ j.path[i + 1]? = some step.after := by
  obtain ⟨hlt, hat⟩ := List.getElem?_eq_some_iff.mp hi
  obtain ⟨first, hfirst⟩ := Option.isSome_iff_exists.mp
    (List.isSome_head?.mpr (List.ne_nil_of_length_pos (Nat.zero_lt_of_lt hlt)))
  have hpath : j.path = first.before :: j.steps.map StepRecord.after := by
    rw [path, hfirst]
    rfl
  rw [hpath, List.getElem?_cons_succ, List.getElem?_map, hi]
  refine ⟨?_, rfl⟩
  cases i with
  | zero =>
    rw [← List.head?_eq_getElem?, hfirst] at hi
    cases hi
    rfl
  | succ i =>
    -- the entry is the end of the step before
    have hlinked := List.isChain_iff_getElem.mp h.linked i hlt
    rw [hat] at hlinked
    rw [List.getElem?_cons_succ, List.getElem?_map,
      List.getElem?_eq_getElem (Nat.lt_of_succ_lt hlt), Option.map_some, hlinked]

end Journal

/-! ## Sessions -/

namespace Session

variable {C E A : Type} {m : Machine C E A} {limit : Option Nat} {s t u : Session C E A}

/-- From `s` to `t` nothing is entered in the journal and the snapshot stays the same. -/
structure Unwritten (s t : Session C E A) : Prop where
  machine : t.machine = s.machine
  snapshot : t.snapshot = s.snapshot
  journal : t.journal = s.journal
  fresh : t.status = .notStarted → s.status = .notStarted

namespace Unwritten

theorem refl (s : Session C E A) : Unwritten s s := ⟨rfl, rfl, rfl, fun h => h⟩

theorem trans (h : Unwritten s t) (h' : Unwritten t u) : Unwritten s u :=
  ⟨h'.machine.trans h.machine, h'.snapshot.trans h.snapshot, h'.journal.trans h.journal,
    fun hu => h.fresh (h'.fresh hu)⟩

theorem foldl {α : Type} {f : Session C E A → α → Session C E A}
    (hf : ∀ s a, Unwritten s (f s a)) :
    ∀ (l : List α) (s : Session C E A), Unwritten s (l.foldl f s)
  | [], s => .refl s
  | a :: l, s => (hf s a).trans (foldl hf l (f s a))

theorem of_alike (h : Alike s t) : Unwritten s t :=
  ⟨h.machine, h.snapshot, h.journal, fun ht => h.status.symm.trans ht⟩

theorem note (s : Session C E A) (o : Observation C E) : Unwritten s (s.note o) :=
  ⟨rfl, rfl, rfl, fun h => h⟩

theorem accept (s : Session C E A) (handle : Handle) (posts : List Event) :
    Unwritten s (s.accept handle posts) := by
  cases h : handle.alive with
  | false => rw [accept_of_closed s h]; exact .refl s
  | true => rw [accept_eq s h]; exact ⟨rfl, rfl, rfl, fun h => h⟩

theorem post (s : Session C E A) (number : Nat) (event : Event) :
    Unwritten s (s.post number event) := by
  unfold Session.post
  split
  · exact .refl s
  · exact .accept s _ _

theorem teardown (s : Session C E A) : Unwritten s s.teardown := by
  rw [teardown_eq]
  exact ⟨rfl, rfl, rfl, nofun⟩

theorem execute (context : C) (s : Session C E A) (command : Command) :
    Unwritten s (s.execute context command) := by
  cases command with
  | schedule owner event delayMs => exact ⟨rfl, rfl, rfl, fun h => h⟩
  | cancelTimers owner => exact ⟨rfl, rfl, rfl, fun h => h⟩
  | invoke owner id src =>
    dsimp only [Session.execute]
    split
    · exact .refl s
    · rw [startActor_eq]
      exact .trans (t := Session.note { s with started := _, actors := _ } _)
        ⟨rfl, rfl, rfl, fun h => h⟩ (.accept _ _ _)
  | stopActor id =>
    dsimp only [Session.execute, stopActor]
    split
    · exact .refl s
    · rw [stopRunning_eq]
      exact ⟨rfl, rfl, rfl, fun h => h⟩
  | sendTo actor event =>
    dsimp only [Session.execute, deliver]
    split
    · exact .refl s
    · exact .trans (t := Session.note { s with actors := _ } _) ⟨rfl, rfl, rfl, fun h => h⟩
        (.accept _ _ _)

theorem publish (s : Session C E A) (snapshot : Snapshot C) : Unwritten s (s.publish snapshot) :=
  foldl (fun s _ => note s _) s.listeners s

theorem stop (s : Session C E A) : Unwritten s s.stop.session := by
  unfold Session.stop
  split
  · exact .refl s
  · exact ⟨rfl, rfl, rfl, nofun⟩
  · exact .teardown s
  · rename_i snapshot _ _
    have heffects := of_alike (.noteEffects s (s.machine.exitStep snapshot .live).effects)
    dsimp only
    split
    · exact heffects.trans (.teardown _)
    · exact heffects.trans (.teardown _)

theorem upon (s : Session C E A) (call : Call) : Unwritten s (s.upon call) := by
  cases call with
  | send event =>
    dsimp only [Session.upon]
    split
    · exact .refl s
    · exact (note s _).trans (of_alike (.enqueue _ _))
  | stop => exact .stop s
  | post number event => exact .post s number event
  | _ => exact ⟨rfl, rfl, rfl, fun h => h⟩

end Unwritten

/-- The journal of a session tells how its snapshot came about, as far back as its limit allows. -/
structure Charted (limit : Option Nat) (s : Session C E A) : Prop where
  limited : s.journal.limit = limit
  fresh : s.status = .notStarted → s.snapshot = none
  blank : s.snapshot = none → s.journal.steps = []
  shown : ∀ snapshot ∈ s.snapshot,
    snapshot.value = .ofConfiguration s.machine.chart Chart.root snapshot.configuration
  path : ∀ snapshot ∈ s.snapshot, s.journal.LeadsTo snapshot.value
  begun : limit ≠ some 0 → ∀ snapshot ∈ s.snapshot, s.journal.steps ≠ []

namespace Charted

theorem ofMachine (m : Machine C E A) (name : String) (limit : Option Nat) :
    Charted limit (ofMachine m name limit) :=
  ⟨rfl, fun _ => rfl, fun _ => rfl, nofun, nofun, fun _ => nofun⟩

theorem unwritten (h : Charted limit s) (hu : Unwritten s t) : Charted limit t := by
  obtain ⟨hmachine, hsnapshot, hjournal, hfresh⟩ := hu
  constructor
  · rw [hjournal]; exact h.limited
  · rw [hsnapshot]; exact fun ht => h.fresh (hfresh ht)
  · rw [hsnapshot, hjournal]; exact h.blank
  · rw [hsnapshot, hmachine]; exact h.shown
  · rw [hsnapshot, hjournal]; exact h.path
  · rw [hsnapshot, hjournal]; exact h.begun

/-- The journal leads to the value that a macrostep begins at: that of the snapshot, or the one
that the macrostep shows if it is the first. -/
theorem leadsTo_before (h : Charted limit s) (next : Snapshot C) :
    s.journal.LeadsTo ((s.snapshot.map Snapshot.value).getD next.value) := by
  cases hs : s.snapshot with
  | none => exact .of_nil (h.blank hs) _
  | some snapshot => exact h.path snapshot hs

/-- A macrostep that is taken over is entered in the journal, unless it shows the value from
before. -/
theorem apply (h : Charted limit s) (hs : s.status ≠ .notStarted) {step : Macrostep C}
    (hvalue : step.snapshot.value =
      .ofConfiguration s.machine.chart Chart.root step.snapshot.configuration)
    (hsame : step.snapshot.changed = false →
      s.snapshot.map Snapshot.value = some step.snapshot.value) :
    Charted limit (s.apply step) := by
  have hu : Unwritten s (step.commands.foldl (execute step.snapshot.context) s) :=
    .foldl (Unwritten.execute _) _ s
  have ht := h.unwritten hu
  unfold Session.apply
  dsimp only
  generalize step.commands.foldl (execute step.snapshot.context) s = t at hu ht ⊢
  have htaken : Charted limit
      { (t.record step).publish step.snapshot with snapshot := some step.snapshot } := by
    have hpublish := Unwritten.publish (t.record step) step.snapshot
    have hmachine : (t.record step).machine = s.machine :=
      (record_frame t step).machine.trans hu.machine
    have hstatus : (t.record step).status ≠ .notStarted := by
      rw [(record_frame t step).status]
      exact fun hn => hs (hu.fresh hn)
    have hjournal : (t.record step).journal.limit = limit ∧
        (t.record step).journal.LeadsTo step.snapshot.value ∧
        (limit ≠ some 0 → (t.record step).journal.steps ≠ []) := by
      unfold record
      dsimp only
      split
      · exact ⟨(Journal.push_limit _ _).trans ht.limited, (ht.leadsTo_before step.snapshot).push,
          fun hlimit => Journal.push_ne_nil (by rwa [ht.limited]) _⟩
      · rename_i hchanged
        have hsame := hsame (Bool.eq_false_iff.mpr hchanged)
        rw [← hu.snapshot] at hsame
        obtain ⟨snapshot, hsnapshot, hbefore⟩ := Option.map_eq_some_iff.mp hsame
        exact ⟨ht.limited, hbefore ▸ ht.path snapshot hsnapshot,
          fun hlimit => ht.begun hlimit snapshot hsnapshot⟩
    obtain ⟨hlimit, hpath, hbegun⟩ := hjournal
    exact {
      limited := (congrArg Journal.limit hpublish.journal).trans hlimit
      fresh := fun hn => absurd (hpublish.fresh hn) hstatus
      blank := nofun
      shown := fun snapshot hsnapshot => by
        cases hsnapshot
        rw [hvalue, ← hmachine, ← hpublish.machine]
      path := fun snapshot hsnapshot => by
        cases hsnapshot
        exact hpublish.journal ▸ hpath
      begun := fun hne snapshot _ => hpublish.journal ▸ hbegun hne }
  split
  · exact htaken.unwritten (.teardown _)
  · exact htaken

variable [BEq C]

theorem handle (h : Charted limit s) (hs : s.status = .running) {snapshot : Snapshot C}
    (hsnapshot : s.snapshot = some snapshot) (event : Event) :
    Charted limit (s.handle snapshot event).session := by
  have hu := (Unwritten.note s (.handled event)).trans
    (.of_alike (.noteEffects _ (s.machine.step snapshot event .live).effects))
  have hstatus := ((note_frame s (.handled event)).trans
    (noteEffects_frame _ (s.machine.step snapshot event .live).effects)).status
  unfold Session.handle
  dsimp only
  split
  · exact h.unwritten hu
  · rename_i step hstep
    obtain ⟨hvalue, hsame⟩ := Machine.step_value (h.shown snapshot hsnapshot) hstep
    refine (h.unwritten hu).apply ?_ ?_ fun hchanged => ?_
    · rw [hstatus, hs]; decide
    · rw [hu.machine]; exact hvalue
    · rw [hu.snapshot, hsnapshot, hsame hchanged]; rfl

theorem turn (h : Charted limit s) : Charted limit s.turn.session := by
  have hc := h.unwritten (.of_alike (.collect s))
  have hrest (rest : List Queued) : Charted limit { s.collect with queue := rest } :=
    hc.unwritten ⟨rfl, rfl, rfl, fun h => h⟩
  have ht := s.took
  generalize s.turn = turn at ht ⊢
  cases ht with
  | idle _ => exact hc
  | @dropped item rest snapshot _ _ _ _ => exact (hrest rest).unwritten (.note _ _)
  | @handled item rest snapshot hs _ _ hsnapshot =>
    exact (hrest rest).handle hs hsnapshot item.event

/-- Every stride keeps the journal a path to the snapshot. -/
theorem stride (h : Charted limit s) (hst : Stride s t) : Charted limit t := by
  cases hst with
  | unstarted _ _ => exact h.unwritten (.of_alike (.noteEffects _ _))
  | @started step hs he =>
    have hu := Unwritten.of_alike (.noteEffects s (s.machine.startStep .live).effects)
    have hrunning : Unwritten s
        { s.noteEffects (s.machine.startStep .live).effects with status := .running } :=
      ⟨hu.machine, hu.snapshot, hu.journal, nofun⟩
    refine (h.unwritten hrunning).apply nofun ?_ fun hchanged => ?_
    · rw [hrunning.machine]; exact Machine.startStep_value he
    · -- a start always reports a change
      obtain ⟨x, y, -, -, rfl⟩ := Machine.startStep_ok he
      cases hchanged
  | turn => exact h.turn
  | @fired limit timer timers _ _ =>
    have hu : Unwritten s { s with timers } := ⟨rfl, rfl, rfl, fun h => h⟩
    exact h.unwritten ((hu.trans (.note _ _)).trans (.of_alike (.enqueue _ _)))
  | waited _ => exact h.unwritten ⟨rfl, rfl, rfl, fun h => h⟩

theorem afterAll {fuel : Nat} {calls : List Call} (h : Charted limit s)
    (ht : s.afterAll fuel calls = some t) : Charted limit t := by
  induction calls generalizing s with
  | nil => cases ht; exact h
  | cons call calls ih =>
    rw [Session.afterAll, List.foldlM_cons] at ht
    obtain ⟨u, hu, ht⟩ := Option.bind_eq_some_iff.mp ht
    exact ih ((after_strides hu).keep (fun _ _ h => h.stride) (h.unwritten (.upon s call))) ht

end Charted

/-- The journal of a session is a path to its snapshot. After any calls, whichever of them
failed:

* each step begins at the value where the step before it has ended;
* the last step ends at the value of the current snapshot, and there is one unless there is no
  snapshot or the journal keeps none;
* there are no more steps than the limit allows;
* the values gone through are one more than the steps, none if there are none, and those that
  follow each other are the ends of one step. -/
theorem journal_path [BEq C] {name : String} {fuel : Nat} {calls : List Call}
    (h : (Session.ofMachine m name limit).afterAll fuel calls = some s) :
    (∀ i a b, s.journal.steps[i]? = some a → s.journal.steps[i + 1]? = some b →
      a.after = b.before) ∧
    (∀ last ∈ s.journal.steps.getLast?, s.snapshot.map Snapshot.value = some last.after) ∧
    (limit ≠ some 0 → s.snapshot.isSome = true → s.journal.steps ≠ []) ∧
    (∀ n, limit = some n → s.journal.steps.length ≤ n) ∧
    s.journal.path.length = (if s.journal.steps = [] then 0 else s.journal.steps.length + 1) ∧
    ∀ i step, s.journal.steps[i]? = some step →
      s.journal.path[i]? = some step.before ∧ s.journal.path[i + 1]? = some step.after := by
  have hc := (Charted.ofMachine m name limit).afterAll h
  cases hsnapshot : s.snapshot with
  | none =>
    simp [hc.blank hsnapshot, Journal.path]
  | some snapshot =>
    have hpath := hc.path snapshot hsnapshot
    refine ⟨fun i a b ha hb => ?_, fun last hlast => ?_, fun hlimit _ => ?_, fun n hn => ?_,
      Journal.path_length _, fun i step hi => hpath.path_getElem hi⟩
    · obtain ⟨hlt, rfl⟩ := List.getElem?_eq_some_iff.mp hb
      obtain ⟨_, rfl⟩ := List.getElem?_eq_some_iff.mp ha
      exact List.isChain_iff_getElem.mp hpath.linked i hlt
    · exact congrArg some (hpath.ends last hlast).symm
    · exact hc.begun hlimit snapshot hsnapshot
    · exact hpath.bounded n (hc.limited.trans hn)

/-- The lamp comes back to its two last steps: pressing it while it was on made no difference, and
its bulb could not be taken out. -/
theorem journal_path_lamp : ∃ s,
    (Session.ofMachine lampMachine "lamp" (some 2)).afterAll 5 lampCalls = some s ∧
    s.journal.path = [.leaf "on", .leaf "off", .leaf "on"] ∧
    (∀ i a b, s.journal.steps[i]? = some a → s.journal.steps[i + 1]? = some b →
      a.after = b.before) ∧
    (∀ last ∈ s.journal.steps.getLast?, s.snapshot.map Snapshot.value = some last.after) ∧
    (some 2 ≠ some 0 → s.snapshot.isSome = true → s.journal.steps ≠ []) ∧
    (∀ n, some 2 = some n → s.journal.steps.length ≤ n) ∧
    s.journal.path.length = (if s.journal.steps = [] then 0 else s.journal.steps.length + 1) ∧
    ∀ i step, s.journal.steps[i]? = some step →
      s.journal.path[i]? = some step.before ∧ s.journal.path[i + 1]? = some step.after := by
  have hrun : ((ofMachine lampMachine "lamp" (some 2)).afterAll 5 lampCalls).any (fun s =>
      s.journal.path = [.leaf "on", .leaf "off", .leaf "on"]) = true := by decide +kernel
  obtain ⟨s, hs, hpath⟩ := (Option.any_eq_true _ _).mp hrun
  exact ⟨s, hs, of_decide_eq_true hpath, journal_path hs⟩

end Session

end Statechart
