import Mathlib.Data.List.Chain
import Statechart.Proofs.Configuration.Notes
import Statechart.Proofs.Configuration.Reachable

/-!
# The courses of runs

A run enters the initial configuration and then takes one microstep after the other, within
macrosteps and from each macrostep to the next. Its course lists these microsteps in order, each
with the transitions that it takes and with the configuration and the history before and after
it (`Hop`). A course may end anywhere, also inside a macrostep that fails later on. What ends
the loop early, the ceiling on microsteps and the search for cycles, is no part of it: the
microsteps that a run really takes are a course all the same.

* `Reachable.course`: every snapshot that a machine returns is at the end of a course.
* `Course.keeps`: what every microstep keeps holds along a course.
* `Course.linked`, `Course.sound_of_aimsApart`, `Course.sound`: what is known of its microsteps.
-/
namespace Statechart

/-! ## Microsteps of a course -/

namespace Chart

/-- A microstep: what is taken, and the configuration and the history before and after it. -/
structure Hop where
  transitions : List Nat
  before : NodeSet × Dict (List Nat)
  after : NodeSet × Dict (List Nat)

namespace Hop

def exits (c : Chart) (hop : Hop) : NodeSet := c.exitSet hop.before.1 hop.transitions

/-- The history once they are left, which entries go by. -/
def noted (c : Chart) (hop : Hop) : Dict (List Nat) :=
  c.historyAfter hop.before.1 (hop.exits c) hop.before.2

def entries (c : Chart) (hop : Hop) : NodeSet :=
  (c.entrySet (hop.noted c) hop.transitions).getD ∅

/-- The transitions are apart where they are taken, and lead to what comes after. -/
structure Sound (c : Chart) (hop : Hop) : Prop where
  before : c.Sound hop.before.1 hop.before.2
  selected : c.Selected hop.before.1 hop.transitions
  taken : c.taken hop.transitions hop.before = some hop.after

variable {c : Chart} {hop : Hop}

theorem Sound.after_eq (hs : hop.Sound c) : hop.after =
    ((Execution.moves (hop.exits c) (hop.entries c)).foldl Move.apply hop.before.1,
      hop.noted c) := by
  obtain ⟨entries, he, ha⟩ := Option.map_eq_some_iff.mp hs.taken
  have hentries : hop.entries c = entries := congrArg (·.getD ∅) he
  rw [hentries]
  exact ha.symm

theorem Sound.history_after (hs : hop.Sound c) : hop.after.2 = hop.noted c := by
  rw [hs.after_eq]

theorem Sound.mem_after (hs : hop.Sound c) {n : Nat} :
    n ∈ hop.after.1 ↔ n ∈ hop.before.1 ∧ n ∉ hop.exits c ∨ n ∈ hop.entries c := by
  rw [hs.after_eq]
  exact Execution.mem_foldl_moves

end Hop

end Chart

namespace Execution

variable {C E : Type}

def standing (x : Execution C E) : NodeSet × Dict (List Nat) := (x.configuration, x.history)

/-- What the next event finds. -/
def renewed (x : Execution C E) : Execution C E :=
  { configuration := x.configuration, context := x.context, history := x.history }

theorem taken_of_microstep {A : Type} {c : Chart} {r : Registry C E A} {mode : Mode} {event : Event}
    {x y : Execution C E} {transitions : List Nat}
    (h : microstep c r mode transitions event x = .ok y) :
    c.taken transitions x.standing = some y.standing := by
  obtain ⟨entries, he, hmoved⟩ := microstep_spec h
  refine Option.map_eq_some_iff.mpr ⟨entries, he, ?_⟩
  exact Prod.ext hmoved.configuration.symm hmoved.history.symm

end Execution

namespace Machine

open Chart

variable {C E A : Type}

/-- The courses of runs, with the mode of the macrostep at the end, the event that it handled last
and the execution. -/
inductive Course (m : Machine C E A) : List Hop → Mode → Event → Execution C E → Prop
  /-- The initial configuration is entered. -/
  | start {mode : Mode} {x : Execution C E}
      (h : Execution.enterInitial m.chart m.registry mode .init
        { configuration := ∅, context := m.context, history := [] } = .ok x) :
      Course m [] mode .init x
  /-- The loop goes on. -/
  | next {hops : List Hop} {mode : Mode} {current : Event} {x y : Execution C E} {choice : Choice}
      (hx : Course m hops mode current x) (hn : m.next? current x = .ok (some choice))
      (h : m.take mode x choice = .ok y) :
      Course m (hops ++ [⟨choice.transitions, x.standing, y.standing⟩]) mode choice.event y
  /-- The loop is over, and the next event selects transitions. -/
  | first {hops : List Hop} {mode mode' : Mode} {current event : Event} {x y : Execution C E}
      {transitions : List Nat} (hx : Course m hops mode current x)
      (hn : m.next? current x = .ok none) (hd : m.isDone x.configuration = false)
      (hsel : m.registry.select m.chart x.configuration x.context event .event = .ok transitions)
      (hne : transitions ≠ [])
      (h : Execution.microstep m.chart m.registry mode' transitions event x.renewed = .ok y) :
      Course m (hops ++ [⟨transitions, x.standing, y.standing⟩]) mode' event y

variable {m : Machine C E A} {hops : List Hop} {mode : Mode} {current : Event} {x : Execution C E}

/-! ## Snapshots -/

section Snapshot

variable [BEq C]

theorem Course.rounds {trigger : Event} {budget : Nat} {seen : List (Moment C)} {y : Execution C E}
    (hx : m.Course hops mode current x)
    (h : m.stabilize mode trigger budget seen current x = .ok y) : ∃ more last,
      m.Course (hops ++ more) mode last y ∧ m.next? last y = .ok none := by
  have hr := m.rounds_stabilize mode trigger budget seen current x
  rw [h] at hr
  clear h
  generalize hy : (.ok y : Attempt E (Execution C E)) = result at hr
  induction hr generalizing hops with
  | failed => cases hy
  | ended hn => cases hy; exact ⟨[], _, by rwa [List.append_nil], hn⟩
  | cycle => cases hy
  | limit => cases hy
  | halted => cases hy
  | took hn _ ht _ ih =>
    obtain ⟨more, last, hcourse, hlast⟩ := ih (hx.next hn ht) hy
    exact ⟨_, last, by rwa [List.append_assoc] at hcourse, hlast⟩

/-- Every snapshot that a machine returns is at the end of a course, with nothing left to take. -/
theorem Reachable.course {s : Snapshot C} (hs : m.Reachable s) :
    ∃ hops mode current, ∃ x : Execution C E, m.Course hops mode current x ∧
      m.next? current x = .ok none ∧ execution s = x.renewed := by
  induction hs with
  | start h =>
    obtain ⟨x, y, hx, hy, rfl⟩ := startStep_ok h
    obtain ⟨hops, current, hcourse, hn⟩ := (Course.start hx).rounds hy
    exact ⟨hops, _, current, y, hcourse, hn, rfl⟩
  | @step s event mode' step hs h ih =>
    obtain ⟨hops, mode, current, x, hcourse, hn, hx⟩ := ih
    have hunchanged : execution (unchanged s event).snapshot = x.renewed := hx
    have hdone : s.done = m.isDone x.renewed.configuration := by rw [← hx]; exact hs.shown.2
    unfold Machine.step at h
    split at h
    · cases h; exact ⟨hops, mode, current, x, hcourse, hn, hunchanged⟩
    · rename_i hd
      split at h
      · cases h
      · cases h; exact ⟨hops, mode, current, x, hcourse, hn, hunchanged⟩
      · rename_i transitions hne hsel
        obtain ⟨z, hz, rfl⟩ := outcome_ok h
        rw [runStep, bind_ok, hx] at hz
        obtain ⟨y, hy, hz⟩ := hz
        have hsel : m.registry.select m.chart x.renewed.configuration x.renewed.context event
            .event = .ok transitions := by rw [← hx]; exact hsel
        rw [hdone, Bool.not_eq_true] at hd
        obtain ⟨more, last, hcourse, hlast⟩ :=
          (hcourse.first hn hd hsel (fun e => hne (e ▸ rfl)) hy).rounds hz
        exact ⟨_, mode', last, z, hcourse, hlast, rfl⟩

end Snapshot

/-! ## Along a course -/

/-- What every microstep of selected transitions keeps holds along a course. -/
theorem Course.keeps {P : List Hop → NodeSet × Dict (List Nat) → Prop}
    (hstart : ∀ mode (y : Execution C E), Execution.enterInitial m.chart m.registry mode .init
      { configuration := ∅, context := m.context, history := [] } = .ok y → P [] y.standing)
    (hstep : ∀ hops (x y : Execution C E) transitions mode event context handled trigger,
      P hops x.standing →
      m.registry.select m.chart x.configuration context handled trigger = .ok transitions →
      Execution.microstep m.chart m.registry mode transitions event x = .ok y →
      P (hops ++ [⟨transitions, x.standing, y.standing⟩]) y.standing)
    (hx : m.Course hops mode current x) : P hops x.standing := by
  induction hx with
  | start h => exact hstart _ _ h
  | @next hops _ _ x _ choice _ hn h ih =>
    obtain ⟨event, trigger, hsel⟩ := select_of_choose (next?_ok hn)
    exact hstep hops { x with internal := choice.internal } _ _ _ _ _ event trigger ih hsel h
  | @first hops _ _ _ _ x _ _ _ _ _ hsel _ h ih =>
    exact hstep hops x.renewed _ _ _ _ _ _ _ ih hsel h

theorem Course.sorted (hx : m.Course hops mode current x) : x.history.Sorted := by
  refine hx.keeps (P := fun _ s => s.2.Sorted) (fun mode y h => ?_)
    fun hops x y transitions mode event context handled trigger hs _ h => ?_
  · obtain ⟨entries, -, hmoved⟩ := Execution.enterInitial_spec h
    rw [Execution.standing, hmoved.history]
    exact .nil
  · obtain ⟨entries, -, hmoved⟩ := Execution.microstep_spec h
    rw [Execution.standing, hmoved.history]
    exact sorted_historyAfter hs

/-- A course ends where its last microstep does, and each of its microsteps begins where the one
before it ends. -/
theorem Course.linked (hx : m.Course hops mode current x) :
    (∀ hop ∈ hops.getLast?, hop.after = x.standing) ∧
      hops.IsChain fun hop later => later.before = hop.after := by
  refine hx.keeps (P := fun hops s => (∀ hop ∈ hops.getLast?, hop.after = s) ∧
      hops.IsChain fun hop later => later.before = hop.after) (fun _ _ _ => ⟨nofun, .nil⟩)
    fun hops x y transitions _ _ _ _ _ ⟨hlast, hchain⟩ _ _ => ⟨by simp, ?_⟩
  refine List.isChain_append.mpr ⟨hchain, .singleton _, fun hop hhop later hlater => ?_⟩
  cases hlater
  exact (hlast hop hhop).symm

section Sound

variable {names : Names} (h : m.chart.Accepted names)
include h

/-- A course whose transitions target orthogonal states. At its end the configuration is legal
and all that is remembered can be entered again, and its microsteps took transitions that are
apart. -/
theorem Course.sound_of_aimsApart (we : m.chart.Enterable) (hx : m.Course hops mode current x)
    (ho : ∀ hop ∈ hops, ∀ t ∈ hop.transitions, m.chart.AimsApart t) :
    m.chart.Sound x.configuration x.history ∧ ∀ hop ∈ hops, hop.Sound m.chart := by
  refine hx.keeps (P := fun hops s => (∀ hop ∈ hops, ∀ t ∈ hop.transitions, m.chart.AimsApart t) →
      m.chart.Sound s.1 s.2 ∧ ∀ hop ∈ hops, hop.Sound m.chart)
    (fun mode y he _ => ⟨sound_enterInitial h we rfl rfl he,
      fun _ hop => absurd hop List.not_mem_nil⟩)
    (fun hops x y transitions _ _ _ _ _ ih hsel hm ho => ?_) ho
  obtain ⟨hs, hhops⟩ := ih fun hop hhop => ho hop (List.mem_append_left _ hhop)
  have hlast := ho ⟨transitions, x.standing, y.standing⟩ (by simp)
  refine ⟨hs.microstep_of_aimsApart h we hsel hlast hm, fun hop hhop => ?_⟩
  rcases List.mem_append.mp hhop with hhop | hhop
  · exact hhops hop hhop
  · rw [List.mem_singleton.mp hhop]
    exact ⟨hs, Registry.selected_of_select h hs.legal.lt_size hsel, Execution.taken_of_microstep hm⟩

/-- The course of a well-formed chart, whose transitions all do. -/
theorem Course.sound (wf : m.chart.WellFormed) (hx : m.Course hops mode current x) :
    m.chart.Sound x.configuration x.history ∧ ∀ hop ∈ hops, hop.Sound m.chart :=
  hx.sound_of_aimsApart h wf.enterable fun _ _ t _ => wf.aimsApart t

end Sound

end Machine

end Statechart
