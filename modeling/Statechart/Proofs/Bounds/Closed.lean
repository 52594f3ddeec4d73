import Statechart.Proofs.Chart.Accepted

/-!
# Tables that lead nowhere else

States and transitions refer to each other by number, and to guards, actions and actor sources by
name. In a chart that was built, every number is one of the chart (`Closed`), and every name is
registered (`Registered`): what is not is a problem, and a definition with problems is refused.

* `closed_of_build`, `registered_of_build`: charts of accepted definitions.
-/
namespace Statechart

/-- Every number in the tables of a chart is that of a state or a transition of it. -/
structure Chart.Closed (c : Chart) : Prop extends c.IsTree where
  children : ∀ n, ∀ k ∈ (c.node n).children, k < c.size
  initial : ∀ n, ∀ k ∈ (c.node n).initial, k < c.size
  historyTarget : ∀ n, ∀ k ∈ (c.node n).historyTarget, k < c.size
  on : ∀ n type, ∀ t ∈ (c.node n).transitionsFor type, t < c.transitions.size
  always : ∀ n, ∀ t ∈ (c.node n).always, t < c.transitions.size
  source : ∀ t, (c.transition t).source < c.size
  targets : ∀ t, ∀ n ∈ (c.transition t).targets, n < c.size

/-- Every name in the tables of a chart is registered. -/
structure Chart.Registered (names : Names) (c : Chart) : Prop where
  entry : ∀ n name, .named name ∈ (c.node n).entry → names.action name = true
  exit : ∀ n name, .named name ∈ (c.node n).exit → names.action name = true
  actions : ∀ t name, .named name ∈ (c.transition t).actions → names.action name = true
  guard : ∀ t, ∀ name ∈ (c.transition t).guard, names.guard name = true
  actor : ∀ n, ∀ i ∈ (c.node n).invoke, names.actor i.src = true

namespace Layout

variable (l : Layout)

theorem offered_lt {n t : Nat}
    (ht : (∃ e, t ∈ (l.chart.node n).transitionsFor e) ∨ t ∈ (l.chart.node n).always) :
    t < l.chart.transitions.size := by
  rcases l.node_cases n with e | ⟨hn, e⟩ <;> rw [e] at ht
  · rcases ht with ⟨e, ht⟩ | ht <;> exact absurd ht List.not_mem_nil
  · obtain ⟨h1, h2⟩ := range_of_offered l ht
    obtain ⟨j, rfl⟩ := Nat.exists_eq_add_of_le h1
    have hj : j < (l.slot n).declared.length := by omega
    have hs : l.slots.toList[n]? = some (l.slot n) := by simp [slot, hn]
    have hget := getElem?_transitionsFrom l l.slots.toList 0 0 n _ hs j _
      (List.getElem?_eq_getElem hj)
    have hlt := (List.getElem?_eq_some_iff.mp hget).1
    simpa [chart] using hlt

/-! ## Names -/

variable {l} {names : Names}

theorem action_of_actionProblems {state name : String} {actions : List Action}
    (h : actionProblems names state actions = []) (hm : .named name ∈ actions) :
    names.action name = true := by
  have hnone := List.filterMap_eq_nil_iff.mp h _ hm
  dsimp only at hnone
  split at hnone
  · assumption
  · cases hnone

theorem behaviourProblems_of_from {slots : List Slot} :
    ∀ {seen : List String} {n : Nat}, l.behaviourProblemsFrom names seen n slots = [] →
      ∀ i < slots.length, ∃ seen', l.behaviourProblems names seen' (n + i) = [] := by
  induction slots with
  | nil => exact fun _ i hi => absurd hi (Nat.not_lt_zero i)
  | cons s rest ih =>
    intro seen n h i hi
    rw [behaviourProblemsFrom, List.append_eq_nil_iff] at h
    cases i with
    | zero => exact ⟨seen, h.1⟩
    | succ i =>
      rw [show n + (i + 1) = n + 1 + i by omega]
      exact ih h.2 i (Nat.lt_of_succ_lt_succ hi)

end Layout

variable {names : Names} {d : Definition} {c : Chart}

namespace Chart

theorem closed_of_build (h : Chart.build names d = .ok c) : c.Closed := by
  have ha := accepted_of_build h
  obtain ⟨-, rfl⟩ := build_ok.mp h
  generalize Layout.ofDefinition d = l at ha ⊢
  exact {
    ha.toIsTree with
    children := fun n k hk => lt_size_of_parent (ha.mem_children.mp hk)
    initial := fun n k hk => lt_size_of_parent (ha.parent_of_initial hk)
    historyTarget := fun n k hk => ha.historyTarget_lt hk
    on := fun n type t ht => l.offered_lt (.inl ⟨type, ht⟩)
    always := fun n t ht => l.offered_lt (.inr ht)
    source := fun t => by
      rcases l.transition_cases t with e | ⟨n, td, hn, -, e⟩
      · rw [e]; exact ha.root_lt
      · rw [e, l.size_chart]; exact hn
    targets := fun t n hn => ha.target_lt hn }

theorem registered_of_build (h : Chart.build names d = .ok c) : c.Registered names := by
  have ha := accepted_of_build h
  obtain ⟨hproblems, rfl⟩ := build_ok.mp h
  generalize Layout.ofDefinition d = l at hproblems ha ⊢
  simp only [Layout.problems, List.append_eq_nil_iff] at hproblems
  -- What is wrong with one state: nothing.
  have hbehaviour : ∀ n < l.slots.size, ∃ seen, l.behaviourProblems names seen n = [] := by
    intro n hn
    have := Layout.behaviourProblems_of_from hproblems.2 n (by simpa using hn)
    rwa [Nat.zero_add] at this
  simp only [Layout.behaviourProblems, List.append_eq_nil_iff, List.flatMap_eq_nil_iff]
    at hbehaviour
  have htransition : ∀ t, l.chart.transition t = .absent ∨
      ∃ n td, l.transitionProblems names n td = [] ∧
        (l.chart.transition t).actions = td.actions ∧ (l.chart.transition t).guard = td.guard := by
    intro t
    rcases l.transition_cases t with e | ⟨n, td, hn, htd, e⟩
    · exact .inl e
    · obtain ⟨seen, ⟨-, hall⟩, -⟩ := hbehaviour n hn
      exact .inr ⟨n, td.2, hall td htd, by rw [e]; rfl, by rw [e]; rfl⟩
  simp only [Layout.transitionProblems, List.append_eq_nil_iff] at htransition
  exact {
    entry := fun n name hname => by
      rcases l.node_cases n with e | ⟨hn, e⟩ <;> rw [e] at hname
      · exact absurd hname List.not_mem_nil
      · obtain ⟨seen, ⟨⟨hok, -⟩, -⟩, -⟩ := hbehaviour n hn
        exact Layout.action_of_actionProblems hok hname
    exit := fun n name hname => by
      rcases l.node_cases n with e | ⟨hn, e⟩ <;> rw [e] at hname
      · exact absurd hname List.not_mem_nil
      · obtain ⟨seen, ⟨⟨-, hok⟩, -⟩, -⟩ := hbehaviour n hn
        exact Layout.action_of_actionProblems hok hname
    actions := fun t name hname => by
      rcases htransition t with e | ⟨n, td, ⟨-, hok⟩, hactions, -⟩
      · rw [e] at hname; exact absurd hname List.not_mem_nil
      · exact Layout.action_of_actionProblems hok (hactions ▸ hname)
    guard := fun t name hname => by
      rcases htransition t with e | ⟨n, td, ⟨⟨hok, -⟩, -⟩, -, hguard⟩
      · rw [e] at hname; cases hname
      · rw [hguard] at hname
        rw [Option.mem_def.mp hname] at hok
        simpa using hok
    actor := fun n i hi => ha.actor_known hi }

end Chart

end Statechart
