import Statechart.Proofs.Configuration.Moves
import Statechart.Proofs.Configuration.Reachable
import Statechart.Proofs.Macrostep.Phases

/-!
# The microsteps of runs

A run takes one microstep after the other: one that enters the initial configuration, one for
the transitions that an event selects, and in each macrostep as many more as the loop takes
(`Machine.Microstep`), also if the macrostep fails in the end. In every one of them all exits
come before all entries; and in a chart that is well formed it begins and ends in a legal
configuration, and what it enters is not active then, unless it is the root (`Turnover`).

* `Microstep.written`: what a microstep writes.
* `Microstep.entries_last`: no state is left once another was entered.
* `Microstep.turnover`: what holds at both ends of a microstep of a well-formed chart.
-/
namespace Statechart

/-! ## Rows of phases that end with entries -/

section Split

variable {before after first : List Phase} {entries : List Nat} {f : Nat}

/-- A row that ends with its entries is cut at an entry. -/
theorem split_enter (hfirst : ∀ n, .enter n ∉ first)
    (h : first ++ entries.map .enter = before ++ .enter f :: after) :
    ∃ l₁ l₂, entries = l₁ ++ f :: l₂ ∧ before = first ++ l₁.map .enter ∧
      after = l₂.map .enter := by
  rcases List.append_eq_append_iff.mp h with ⟨l, rfl, hl⟩ | ⟨l, rfl, hl⟩
  · obtain ⟨l₁, rest, rfl, rfl, hrest⟩ := List.map_eq_append_iff.mp hl
    obtain ⟨k, l₂, rfl, hk, rfl⟩ := List.map_eq_cons_iff.mp hrest
    cases hk
    exact ⟨l₁, l₂, rfl, rfl, rfl⟩
  · cases l with
    | nil =>
      obtain ⟨k, l₂, rfl, hk, rfl⟩ := List.map_eq_cons_iff.mp hl.symm
      cases hk
      exact ⟨[], l₂, rfl, by simp, rfl⟩
    | cons p l =>
      obtain ⟨rfl, -⟩ := List.cons.inj hl
      exact absurd (by simp) (hfirst f)

/-- What is active stays active while no state is left. -/
theorem mem_foldl_of_not_exit {n : Nat} {s : NodeSet} (hn : n ∈ s) (hafter : ∀ k, .exit k ∉ after) :
    n ∈ after.foldl Phase.apply s := by
  induction after generalizing s with
  | nil => exact hn
  | cons p after ih =>
    refine ih ?_ fun k hk => hafter k (List.mem_cons_of_mem _ hk)
    cases p with
    | exit k => exact absurd List.mem_cons_self (hafter k)
    | act t => exact hn
    | enter k => exact NodeSet.mem_insert.mpr (.inr hn)

end Split

namespace Execution

variable {C E : Type} {c : Chart} {x : Execution C E} {transitions : List Nat}

/-- In a microstep the exits and the actions come before the entries. -/
theorem phases_split (c : Chart) (x : Execution C E) (transitions : List Nat) : ∃ first,
    x.phases c transitions = first ++
      ((c.entrySet (recordHistory c (c.exitSet x.configuration transitions) x).history
        transitions).getD ∅).toList.map .enter ∧
    (∀ n, .enter n ∉ first) ∧ ∀ n, n ∈ first.foldl Phase.apply x.configuration →
      n ∈ x.configuration ∧ n ∉ c.exitSet x.configuration transitions := by
  have hfirst : ∀ n, .enter n ∉ (c.exitSet x.configuration transitions).toList.reverse.map
      Phase.exit ++ transitions.map .act := by simp
  refine ⟨_, rfl, hfirst, fun n hn => ?_⟩
  obtain ⟨hactive, hkept⟩ := (mem_foldl_of_not_enter (hfirst n)).mp hn
  exact ⟨hactive, fun hexit => hkept (by simpa [NodeSet.mem_def] using hexit)⟩

end Execution

namespace Machine

variable {C E A : Type} [BEq C]

/-- The microsteps of runs, with their modes, the events that they handle and their phases. -/
inductive Microstep (m : Machine C E A) :
    Mode → Event → Execution C E → List Phase → Execution C E → Prop
  /-- The initial configuration is entered. -/
  | initial {mode : Mode} {y : Execution C E}
      (h : Execution.enterInitial m.chart m.registry mode .init
        { configuration := ∅, context := m.context, history := [] } = .ok y) :
      Microstep m mode .init { configuration := ∅, context := m.context, history := [] }
        ((m.chart.initialEntrySet.getD ∅).toList.map .enter) y
  /-- The transitions are taken that an event selects in a snapshot of a run. -/
  | first {s : Snapshot C} {mode : Mode} {event : Event} {transitions : List Nat}
      {y : Execution C E} (hs : m.Reachable s) (hd : s.done = false)
      (hsel : m.registry.select m.chart s.configuration s.context event .event = .ok transitions)
      (hne : transitions ≠ [])
      (h : Execution.microstep m.chart m.registry mode transitions event (execution s) = .ok y) :
      Microstep m mode event (execution s) ((execution s : Execution C E).phases m.chart transitions)
        y
  /-- The loop goes on. -/
  | next {mode : Mode} {current : Event} {w x y : Execution C E} {phases : List Phase}
      {choice : Choice} (hx : Microstep m mode current w phases x)
      (hn : m.next? current x = .ok (some choice)) (h : m.take mode x choice = .ok y) :
      Microstep m mode choice.event { x with internal := choice.internal }
        (x.phases m.chart choice.transitions) y

variable {m : Machine C E A} {mode : Mode} {event : Event} {x y : Execution C E}
  {phases : List Phase}

namespace Microstep

theorem written (hm : m.Microstep mode event x phases y) : Execution.Written m.chart phases x y := by
  cases hm with
  | initial h => exact Execution.enterInitial_written h
  | first _ _ _ _ h => exact Execution.microstep_written h
  | next _ _ h => exact Execution.microstep_written h

/-- No state is left once another was entered. -/
theorem entries_last (hm : m.Microstep mode event x phases y) {before after : List Phase} {f : Nat}
    (hf : phases = before ++ .enter f :: after) : ∀ n, .exit n ∉ after := by
  have hshape : ∃ (first : List Phase) (entries : List Nat),
      phases = first ++ entries.map .enter ∧ ∀ n, .enter n ∉ first := by
    cases hm with
    | initial h => exact ⟨[], _, rfl, fun _ => List.not_mem_nil⟩
    | @first s _ _ transitions =>
      obtain ⟨first, he, hfirst, -⟩ :=
        Execution.phases_split m.chart (execution s : Execution C E) transitions
      exact ⟨first, _, he, hfirst⟩
    | @next _ _ _ x _ _ choice =>
      obtain ⟨first, he, hfirst, -⟩ := Execution.phases_split m.chart x choice.transitions
      exact ⟨first, _, he, hfirst⟩
  obtain ⟨first, entries, rfl, hfirst⟩ := hshape
  obtain ⟨l₁, l₂, -, -, rfl⟩ := split_enter hfirst hf
  simp

end Microstep

/-- The first microstep of a step, with its phases. -/
def firstMicrostep? (m : Machine C E A) (mode : Mode) (s : Snapshot C) (event : Event) :
    Option (List Phase × Execution C E) :=
  if s.done then none
  else match m.registry.select m.chart s.configuration s.context event .event with
    | .error _ => none
    | .ok [] => none
    | .ok (t :: ts) =>
      match Execution.microstep m.chart m.registry mode (t :: ts) event (execution s) with
      | .error _ => none
      | .ok y => some ((execution s : Execution C E).phases m.chart (t :: ts), y)

theorem Reachable.firstMicrostep {s : Snapshot C} (hs : m.Reachable s)
    (h : m.firstMicrostep? mode s event = some (phases, y)) :
    m.Microstep mode event (execution s) phases y := by
  unfold firstMicrostep? at h
  split at h
  · cases h
  · rename_i hd
    split at h
    · cases h
    · cases h
    · rename_i t ts hsel
      split at h
      · cases h
      · rename_i hm
        cases h
        exact .first hs (Bool.not_eq_true _ ▸ hd) hsel (List.cons_ne_nil _ _) hm

/-! ## Microsteps of well-formed charts -/

/-- A microstep of a well-formed chart, from where it begins to where it ends. -/
structure Turnover (c : Chart) (s : NodeSet) (phases : List Phase) (t : NodeSet) : Prop where
  /-- What is active first has its parents active. -/
  parent_mem : ∀ n ∈ s, ∀ p, (c.node n).parent = some p → p ∈ s
  legal : c.Legal t
  /-- What is entered is not active, unless it is the root. -/
  fresh : ∀ before f after, phases = before ++ .enter f :: after →
    f ∈ before.foldl Phase.apply s → f = Chart.root

section Turnover

variable {names : Names} (h : m.chart.Accepted names) (wf : m.chart.WellFormed)
include h wf

theorem Microstep.sound (hm : m.Microstep mode event x phases y) :
    m.chart.Sound y.configuration y.history := by
  induction hm with
  | initial he => exact Chart.sound_enterInitial h wf.enterable rfl rfl he
  | @first s _ _ _ _ hs _ hsel _ hm =>
    exact Chart.Sound.microstep h wf (x := execution s) (hs.sound h wf) hsel hm
  | @next _ _ _ x _ _ choice _ hn hm ih =>
    obtain ⟨event, trigger, hsel⟩ := select_of_choose (next?_ok hn)
    exact Chart.Sound.microstep h wf (x := { x with internal := choice.internal }) ih hsel hm

omit h wf in
theorem fresh_of_entries {s : NodeSet} {first : List Phase} {entries : NodeSet}
    (hfirst : ∀ n, .enter n ∉ first)
    (hnew : ∀ n ∈ entries, n ∈ first.foldl Phase.apply s → n = Chart.root)
    {before after : List Phase} {f : Nat}
    (hf : first ++ entries.toList.map .enter = before ++ .enter f :: after)
    (hactive : f ∈ before.foldl Phase.apply s) : f = Chart.root := by
  obtain ⟨l₁, l₂, hl, rfl, -⟩ := split_enter hfirst hf
  have hnodup : (l₁ ++ f :: l₂).Nodup := hl ▸ entries.nodup
  have hother : .enter f ∉ l₁.map Phase.enter := by
    simpa using fun hmem => (List.nodup_append.mp hnodup).2.2 f hmem f List.mem_cons_self rfl
  rw [List.foldl_append, mem_foldl_of_not_enter hother] at hactive
  exact hnew f (by rw [NodeSet.mem_def, hl]; simp) hactive.1

/-- What holds at both ends of a microstep, and of its entries. -/
theorem Microstep.turnover (hm : m.Microstep mode event x phases y) :
    Turnover m.chart x.configuration phases y.configuration := by
  have legal := (hm.sound h wf).legal
  -- a microstep of transitions that were selected in a legal configuration
  have taken : ∀ {x : Execution C E} {context : C} {handled : Event} {trigger : Trigger}
      {transitions : List Nat}, m.chart.Sound x.configuration x.history →
      m.registry.select m.chart x.configuration context handled trigger = .ok transitions →
      Execution.microstep m.chart m.registry mode transitions event x = .ok y →
      Turnover m.chart x.configuration (x.phases m.chart transitions) y.configuration := by
    intro x context handled trigger transitions hx hsel hm
    obtain ⟨entries, he, hexchange, -⟩ := hx.exchange h wf hsel hm
    obtain ⟨first, hphases, hfirst, hkept⟩ := Execution.phases_split m.chart x transitions
    rw [he, Option.getD_some] at hphases
    rw [hphases]
    refine ⟨hx.legal.parent_mem, legal, fun before f after =>
      fresh_of_entries hfirst fun n hn hactive => ?_⟩
    obtain ⟨t, ht, d, hd, hnd | ⟨hroot, -⟩⟩ := hexchange.entered n hn
    · obtain ⟨hx, hne⟩ := hkept n hactive
      exact absurd (Chart.mem_exitSet.mpr ⟨hx, t, ht, d, hd, hnd⟩) hne
    · exact hroot
  cases hm with
  | initial he =>
    have hnone : ∀ n, .enter n ∉ ([] : List Phase) := fun _ => List.not_mem_nil
    exact ⟨fun n hn => absurd hn NodeSet.mem_empty.mp, legal, fun before f after =>
      fresh_of_entries hnone fun n _ hactive => absurd hactive NodeSet.mem_empty.mp⟩
  | @first s _ _ _ _ hs _ hsel _ hm => exact taken (x := execution s) (hs.sound h wf) hsel hm
  | @next _ _ _ x _ _ choice hx hn hm =>
    obtain ⟨event, trigger, hsel⟩ := select_of_choose (next?_ok hn)
    have hsound : m.chart.Sound x.configuration x.history := hx.sound h wf
    exact taken (x := { x with internal := choice.internal }) hsound hsel hm

end Turnover

end Machine

end Statechart
