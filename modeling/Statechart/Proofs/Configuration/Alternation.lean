import Mathlib.Data.List.Chain
import Statechart.Proofs.Configuration.Moves
import Statechart.Proofs.Macrostep.Phases

/-!
# Entries and exits alternate

From the start on, a state is left only while it is active, so after each of its exits comes
an entry if anything, and it is active exactly if its last visit was an entry. That it is not
entered while it is active needs more: that history states stand for states inside their
parents, and that the state is not the root or the root is not a target. For the root is
never left, and yet a transition to it enters it (`kiosk_enters_root_twice`).

* `Visited.microstep`: the visits of one microstep.
* `Account.microstep`: all that is kept along a run.
* `Machine.Chronicle.alternates`: a start and any number of steps.
-/
namespace Statechart

open Chart

/-- Whether a phase enters a state or leaves it. -/
def Phase.visit? (n : Nat) : Phase → Option Bool
  | .exit k => if k = n then some false else none
  | .act _ => none
  | .enter k => if k = n then some true else none

/-- The entries (`true`) and exits (`false`) of a state, in their order. -/
def visits (n : Nat) (phases : List Phase) : List Bool := phases.filterMap (Phase.visit? n)

variable {n : Nat} {phases more : List Phase}

@[simp] theorem visits_append : visits n (phases ++ more) = visits n phases ++ visits n more :=
  List.filterMap_append

@[simp] theorem visits_acts (transitions : List Nat) : visits n (transitions.map .act) = [] := by
  simp [visits, Phase.visit?]

/-- A state is visited once by a row of exits or of entries. -/
theorem visits_map {f : Nat → Phase} {b : Bool}
    (hf : ∀ k, (f k).visit? n = if k = n then some b else none) {l : List Nat} (hl : l.Nodup) :
    visits n (l.map f) = if n ∈ l then [b] else [] := by
  induction l with
  | nil => simp [visits]
  | cons k l ih =>
    obtain ⟨hk, hl⟩ := List.nodup_cons.mp hl
    have ih := ih hl
    simp only [visits, List.map_cons, List.filterMap_cons, hf] at ih ⊢
    by_cases hkn : k = n
    · subst hkn; simp [ih, hk]
    · simp [ih, hkn, Ne.symm hkn]

/-- The visits of a state that was not active at first: each exit follows an entry and each
entry an exit, unless the state may be entered `again`; and it is active now exactly if the
last visit was an entry. -/
structure Visited (again : Prop) (n : Nat) (configuration : NodeSet) (phases : List Phase) :
    Prop where
  chain : (false :: visits n phases).IsChain fun a b => a ≠ b ∨ a = true ∧ again
  last : (visits n phases).getLastD false = decide (n ∈ configuration)

namespace Visited

variable {again : Prop} {s t : NodeSet}

theorem nil (again : Prop) (n : Nat) : Visited again n ∅ [] := ⟨.singleton _, by simp [visits]⟩

theorem skip (h : Visited again n s phases) (hmore : visits n more = []) (ht : n ∈ t ↔ n ∈ s) :
    Visited again n t (phases ++ more) :=
  ⟨by simpa [hmore] using h.chain, by simpa [hmore, ht] using h.last⟩

theorem snoc (h : Visited again n s phases) {b : Bool} (hmore : visits n more = [b])
    (hb : decide (n ∈ s) ≠ b ∨ n ∈ s ∧ again) (ht : n ∈ t ↔ b = true) :
    Visited again n t (phases ++ more) where
  chain := by
    rw [visits_append, hmore, ← List.cons_append]
    refine List.isChain_append.mpr ⟨h.chain, .singleton _, fun a ha c hc => ?_⟩
    have hlast : (visits n phases).getLastD false = a := by
      simpa [List.getLast?_cons] using ha
    rw [← hlast, h.last]
    simp only [List.head?_cons, Option.mem_def, Option.some.injEq] at hc
    simpa [← hc] using hb
  last := by simp [hmore, ht]

theorem exits (h : Visited again n s phases) {l : List Nat} (hl : l.Nodup)
    (hactive : n ∈ l → n ∈ s) (ht : n ∈ t ↔ n ∈ s ∧ n ∉ l) :
    Visited again n t (phases ++ l.map .exit) := by
  have hv : visits n (l.map .exit) = if n ∈ l then [false] else [] :=
    visits_map (fun _ => rfl) hl
  by_cases hn : n ∈ l
  · exact h.snoc (by rw [hv, if_pos hn]) (.inl (by simp [hactive hn])) (by simp [ht, hn])
  · exact h.skip (by rw [hv, if_neg hn]) (by simp [ht, hn])

theorem enters (h : Visited again n s phases) {l : List Nat} (hl : l.Nodup)
    (hagain : n ∈ l → n ∈ s → again) (ht : n ∈ t ↔ n ∈ s ∨ n ∈ l) :
    Visited again n t (phases ++ l.map .enter) := by
  have hv : visits n (l.map .enter) = if n ∈ l then [true] else [] :=
    visits_map (fun _ => rfl) hl
  by_cases hn : n ∈ l
  · refine h.snoc (by rw [hv, if_pos hn]) ?_ (by simp [ht, hn])
    by_cases hs : n ∈ s
    · exact .inr ⟨hs, hagain hn hs⟩
    · exact .inl (by simp [hs])
  · exact h.skip (by rw [hv, if_neg hn]) (by simp [ht, hn])

/-- A microstep leaves what is active, and enters what it has left or what was not active. -/
theorem microstep {C E A : Type} {c : Chart} {r : Registry C E A} {mode : Mode} {event : Event}
    {x y : Execution C E} {transitions : List Nat} (h : Visited again n x.configuration phases)
    (hm : Execution.microstep c r mode transitions event x = .ok y)
    (hagain : ∀ entries,
      c.entrySet (Execution.recordHistory c (c.exitSet x.configuration transitions) x).history
        transitions = some entries →
      n ∈ entries → n ∈ x.configuration → n ∉ c.exitSet x.configuration transitions → again) :
    Visited again n y.configuration (phases ++ x.phases c transitions) := by
  obtain ⟨entries, he, hmoved⟩ := Execution.microstep_spec hm
  have hagain := hagain entries he
  rw [Execution.phases_eq he]
  generalize hexits : c.exitSet x.configuration transitions = exits at hagain hmoved
  have hleft : Visited again n (x.configuration.filter (· ∉ exits))
      (phases ++ exits.toList.reverse.map .exit) := by
    refine h.exits (List.nodup_reverse.mpr exits.nodup) (fun hn => ?_) ?_
    · exact (mem_exitSet.mp (hexits ▸ List.mem_reverse.mp hn)).1
    · rw [NodeSet.mem_filter, List.mem_reverse, decide_eq_true_eq]; exact Iff.rfl
  have hacted := hleft.skip (visits_acts transitions) Iff.rfl
  have hentered := hacted.enters entries.nodup (t := y.configuration)
    (fun hn hs => by
      rw [NodeSet.mem_filter, decide_eq_true_eq] at hs
      exact hagain hn hs.1 hs.2)
    (by
      rw [hmoved.configuration, Execution.mem_foldl_moves, NodeSet.mem_filter, decide_eq_true_eq]
      exact Iff.rfl)
  simpa only [List.append_assoc] using hentered

end Visited

/-! ## Runs -/

/-- Whether a state may be entered while it is active: some history state stands by default
for a state outside its parent, or the state is the root and a transition leads to it. -/
def Chart.MayReenter (c : Chart) (n : Nat) : Prop :=
  c.DefaultsInside → n = root ∧ ∃ t, root ∈ (c.transition t).targets

/-- What is known of a run with these phases that has come to a configuration and a history. -/
structure Account (c : Chart) (phases : List Phase) (labels : List String)
    (commands : List Command) (configuration : NodeSet) (history : Dict (List Nat)) : Prop where
  labels_eq : labels = phases.flatMap (Phase.labels c)
  commands_eq : commands = phases.flatMap (Phase.commands c)
  contained : c.DefaultsInside → c.Contained configuration history
  visited : ∀ n, Visited (c.MayReenter n) n configuration phases

variable {C E A : Type}

/-- The account of an execution in a macrostep, after what was before the macrostep. -/
def AccountOf (c : Chart) (labels : List String) (commands : List Command) (x : Execution C E)
    (phases : List Phase) : Prop :=
  Account c phases (labels ++ x.actions) (commands ++ x.commands) x.configuration x.history

namespace Account

variable {names : Names} {c : Chart} (h : c.Accepted names) {labels : List String}
  {commands : List Command} {r : Registry C E A} {mode : Mode} {event : Event}
  {x y : Execution C E}
include h

/-- A microstep of selected transitions goes on with the account. -/
theorem microstep (hx : AccountOf c labels commands x phases) {context : C} {handled : Event}
    {trigger : Trigger} {transitions : List Nat}
    (hs : r.select c x.configuration context handled trigger = .ok transitions)
    (hm : Execution.microstep c r mode transitions event x = .ok y) :
    AccountOf c labels commands y (phases ++ x.phases c transitions) := by
  obtain ⟨hactions, hcommands, -⟩ := Execution.microstep_written hm
  refine ⟨?_, ?_, fun hd => ((hx.contained hd).microstep h hd hs hm).1, fun n =>
    (hx.visited n).microstep hm fun entries he hn hc hne hd => ?_⟩
  · rw [hactions, ← List.append_assoc, hx.labels_eq, List.flatMap_append]
  · rw [hcommands, ← List.append_assoc, hx.commands_eq, List.flatMap_append]
  · rcases ((hx.contained hd).entered h hd hs he hn).2 hc with hex | ⟨hr, t, -, ht⟩
    · exact absurd hex hne
    · exact ⟨hr, t, ht⟩

theorem enterInitial {context : C}
    (he : Execution.enterInitial c r mode event
      { configuration := ∅, context, history := [] } = .ok x) :
    AccountOf c [] [] x ((c.initialEntrySet.getD ∅).toList.map .enter) := by
  obtain ⟨hactions, hcommands, -⟩ := Execution.enterInitial_written he
  obtain ⟨entries, hset, hmoved⟩ := Execution.enterInitial_spec he
  refine ⟨hactions, hcommands, fun hd => (enterInitial_leads h hd rfl rfl he).1, fun n => ?_⟩
  rw [hset, Option.getD_some]
  refine (Visited.nil (c.MayReenter n) n).enters entries.nodup
    (fun _ hn => absurd hn NodeSet.mem_empty.mp) ?_
  rw [hmoved.configuration, Execution.mem_foldl_enter]

end Account

namespace Machine

variable [BEq C] {m : Machine C E A}

/-- A start and any number of steps, with the phases, the labels and the commands of all of
them, and the last snapshot. -/
inductive Chronicle (m : Machine C E A) :
    List Phase → List String → List Command → Snapshot C → Prop
  | start {mode : Mode} {step : Macrostep C} (h : (m.startStep mode).result = .ok step) :
      Chronicle m (m.startPhases mode) step.snapshot.actions step.commands step.snapshot
  | step {phases labels commands} {s : Snapshot C} {event : Event} {mode : Mode}
      {step : Macrostep C} (hs : Chronicle m phases labels commands s)
      (h : (m.step s event mode).result = .ok step) :
      Chronicle m (phases ++ m.stepPhases mode s event) (labels ++ step.snapshot.actions)
        (commands ++ step.commands) step.snapshot

omit [BEq C] in
theorem keeps_account {names : Names} (h : m.chart.Accepted names) (labels : List String)
    (commands : List Command) : m.Keeps (AccountOf (E := E) m.chart labels commands) := by
  intro x y phases mode transitions handled event trigger internal hx hs hm
  exact Account.microstep h (x := { x with internal }) hx hs hm

theorem Chronicle.account {labels : List String} {commands : List Command} {s : Snapshot C}
    {names : Names} (h : m.chart.Accepted names) (hc : m.Chronicle phases labels commands s) :
    Account m.chart phases labels commands s.configuration s.history := by
  induction hc with
  | start hs =>
    obtain ⟨y, hy, hyields⟩ := startStep_phases (keeps_account h [] [])
      (fun hx => Account.enterInitial h hx) hs
    rw [hyields.configuration, hyields.history, hyields.actions, hyields.commands]
    exact hy
  | @step phases labels commands s _ _ _ _ hs ih =>
    have hbegin : AccountOf m.chart labels commands (execution s : Execution C E) phases := by
      simpa [AccountOf, execution] using ih
    obtain ⟨y, hy, hyields, -⟩ := step_phases (keeps_account h labels commands) hbegin hs
    rw [hyields.configuration, hyields.history, hyields.actions, hyields.commands]
    exact hy

/-- Entries and exits of a state alternate, unless it is entered while it is active. The
labels and commands of a run of a built machine are those of its phases, in their order. A
state is active exactly if its last visit was an entry, its first visit is an entry, and so is
each that follows an exit. If history states stand by default for states inside their parents,
and for the root if it is no target, then each visit that follows an entry is an exit. -/
theorem Chronicle.alternates {registry : Registry C E A} {context : C} {maxMicrosteps : Nat}
    {d : Definition} (hb : build registry context maxMicrosteps d = .ok m)
    {labels : List String} {commands : List Command} {s : Snapshot C}
    (hc : m.Chronicle phases labels commands s) :
    labels = phases.flatMap (Phase.labels m.chart) ∧
    commands = phases.flatMap (Phase.commands m.chart) ∧
    ∀ n, (n ∈ s.configuration ↔ (visits n phases).getLast? = some true) ∧
      (false :: visits n phases).IsChain (fun a b => a = true ∨ b = true) ∧
      (m.chart.DefaultsInside → (n = root → ∀ t, root ∉ (m.chart.transition t).targets) →
        (false :: visits n phases).IsChain (· ≠ ·)) := by
  have ha := hc.account (accepted_of_build hb)
  refine ⟨ha.labels_eq, ha.commands_eq, fun n => ⟨?_, (ha.visited n).chain.imp ?_,
    fun hd ht => (ha.visited n).chain.imp ?_⟩⟩
  · have hlast := (ha.visited n).last
    rw [← decide_eq_true_iff (p := n ∈ s.configuration), ← hlast, List.getLastD_eq_getLast?]
    cases (visits n phases).getLast? <;> simp
  · rintro a b (hne | ⟨rfl, -⟩)
    · cases a <;> cases b <;> simp_all
    · exact .inl rfl
  · rintro a b (hne | ⟨-, hagain⟩)
    · exact hne
    · obtain ⟨hr, t, htarget⟩ := hagain hd
      exact absurd htarget (ht hr t)

/-- A kiosk that shows the news while it runs, and can be reset as a whole. -/
def kiosk : Definition := {
  key := "kiosk"
  initial := some "idle"
  entry := [.named "greet"]
  exit := [.named "bow"]
  on := [⟨"RESET", [{ target := ["#kiosk"], reenter := true }]⟩]
  after := [⟨60, [{ target := ["idle"] }]⟩]
  invoke := [{ id := some "feed", src := "news" }]
  states := [
    { key := "idle", on := [⟨"TOUCH", [{ target := ["menu"] }]⟩] },
    { key := "menu", exit := [.named "close"] }] }

/-- What the kiosk does is not modelled further, nor are the news. -/
def kioskRegistry : Registry Unit Unit Unit where
  actions := ["greet", "bow", "close"].map fun name => (name, .effect fun _ _ => .ok ())
  actors := [("news",
    ⟨fun _ => (), fun _ _ => ⟨(), []⟩, fun _ _ _ => ⟨(), []⟩, fun _ _ => ⟨(), []⟩⟩)]

def kioskMachine : Machine Unit Unit Unit := buildD kioskRegistry () 10 kiosk

/-- The kiosk is started, touched and reset: its screen is left and shown again, but the root is
entered twice and never left, and then the news run twice. -/
theorem chronicle_kiosk : ∃ phases labels commands s,
    kioskMachine.Chronicle phases labels commands s ∧
    visits root phases = [true, true] ∧ visits 1 phases = [true, false, true] ∧
    labels = ["greet", "close", "greet"] ∧
    commands.filter (· matches .invoke ..) =
      [.invoke root "feed" "news", .invoke root "feed" "news"] ∧
    commands.filter (· matches .stopActor _) = [] := by
  have hrun : (match (do
      let a ← (kioskMachine.startStep .live).result
      let b ← (kioskMachine.step a.snapshot { type := "TOUCH" } .live).result
      let c ← (kioskMachine.step b.snapshot { type := "RESET" } .live).result
      return (a, b, c)) with
    | .error _ => false
    | .ok (a, b, c) =>
      let phases := kioskMachine.startPhases .live ++
        kioskMachine.stepPhases .live a.snapshot { type := "TOUCH" } ++
        kioskMachine.stepPhases .live b.snapshot { type := "RESET" }
      let commands := a.commands ++ b.commands ++ c.commands
      visits root phases = [true, true] ∧ visits 1 phases = [true, false, true] ∧
        a.snapshot.actions ++ b.snapshot.actions ++ c.snapshot.actions =
          ["greet", "close", "greet"] ∧
        commands.filter (· matches .invoke ..) =
          [.invoke root "feed" "news", .invoke root "feed" "news"] ∧
        commands.filter (· matches .stopActor _) = []) = true := by decide +kernel
  split at hrun
  · cases hrun
  · rename_i a b c hok
    simp only [bind_ok, pure_ok, Prod.mk.injEq] at hok
    obtain ⟨a, ha, b, hb, c, hc, rfl, rfl, rfl⟩ := hok
    exact ⟨_, _, _, _, ((Chronicle.start ha).step hb).step hc, of_decide_eq_true hrun⟩

/-- A transition to the root enters it while it is active: its visits do not alternate. -/
theorem kiosk_enters_root_twice :
    ¬ ∀ phases labels commands s, kioskMachine.Chronicle phases labels commands s →
      ∀ n, (false :: visits n phases).IsChain (· ≠ ·) := by
  intro hall
  obtain ⟨phases, labels, commands, s, hc, hroot, -⟩ := chronicle_kiosk
  have hchain := hall phases labels commands s hc root
  rw [hroot] at hchain
  exact absurd hchain (by decide)

/-- The screen of the kiosk is shown, left and shown again. -/
theorem alternates_kiosk : build kioskRegistry () 10 kiosk = .ok kioskMachine ∧
    ∃ phases labels commands s, kioskMachine.Chronicle phases labels commands s ∧
      visits 1 phases = [true, false, true] ∧
      labels = phases.flatMap (Phase.labels kioskMachine.chart) ∧
      commands = phases.flatMap (Phase.commands kioskMachine.chart) ∧
      ∀ n, (n ∈ s.configuration ↔ (visits n phases).getLast? = some true) ∧
        (false :: visits n phases).IsChain (fun a b => a = true ∨ b = true) ∧
        (n ≠ root → (false :: visits n phases).IsChain (· ≠ ·)) := by
  have hb : build kioskRegistry () 10 kiosk = .ok kioskMachine :=
    build_eq_buildD (by decide +kernel)
  have hd : kioskMachine.chart.DefaultsInside := by decide +kernel
  obtain ⟨phases, labels, commands, s, hc, -, hidle, -⟩ := chronicle_kiosk
  obtain ⟨hlabels, hcommands, hall⟩ := Chronicle.alternates hb hc
  exact ⟨hb, phases, labels, commands, s, hc, hidle, hlabels, hcommands, fun n =>
    ⟨(hall n).1, (hall n).2.1, fun hn => (hall n).2.2 hd fun hr => absurd hr hn⟩⟩

end Machine

end Statechart
