import Statechart.Proofs.Configuration.Memory
import Statechart.Proofs.Macrostep.Run

/-!
# The moves of a macrostep fit one after the other

A state is left only while it is active, and entered only while it is not; the root alone is
never left and can be entered again. So a macrostep that returns leads from the configuration
before to the one after by moves that fit, and its commands are the commands of these moves
(`Leads`). Neither needs a legal configuration: it is enough that history states remember
states inside their parents, and stand for such by default (`DefaultsInside`).

* `Contained.microstep`: one microstep.
* `startStep_leads`, `step_leads`: a whole macrostep.
-/
namespace Statechart

namespace Move

/-- A state that is left is active and not the root, a state that is entered is not active
or is the root. -/
def Fits (configuration : NodeSet) : Move → Prop
  | .exit n => n ∈ configuration ∧ n ≠ Chart.root
  | .enter n => n ∉ configuration ∨ n = Chart.root

/-- Moves that fit, each after the ones before it. -/
def FitAll : NodeSet → List Move → Prop
  | _, [] => True
  | configuration, m :: moves => m.Fits configuration ∧ FitAll (m.apply configuration) moves

theorem fitAll_append {moves more : List Move} : ∀ {s : NodeSet},
    FitAll s (moves ++ more) ↔ FitAll s moves ∧ FitAll (moves.foldl Move.apply s) more := by
  induction moves with
  | nil => simp [FitAll]
  | cons m moves ih =>
    intro s
    rw [List.cons_append, FitAll, FitAll, ih, List.foldl_cons, and_assoc]

theorem fitAll_exits {l : List Nat} (hl : l.Nodup) : ∀ {s : NodeSet},
    (∀ n ∈ l, n ∈ s ∧ n ≠ Chart.root) → FitAll s (l.map .exit) := by
  induction l with
  | nil => exact fun _ => trivial
  | cons a l ih =>
    intro s hs
    obtain ⟨hal, hl⟩ := List.nodup_cons.mp hl
    refine ⟨hs a (by simp), ih hl fun n hn => ?_⟩
    obtain ⟨hns, hnr⟩ := hs n (by simp [hn])
    exact ⟨NodeSet.mem_erase.mpr ⟨hns, fun e => hal (e ▸ hn)⟩, hnr⟩

theorem fitAll_enters {l : List Nat} (hl : l.Nodup) : ∀ {s : NodeSet},
    (∀ n ∈ l, n ∉ s ∨ n = Chart.root) → FitAll s (l.map .enter) := by
  induction l with
  | nil => exact fun _ => trivial
  | cons a l ih =>
    intro s hs
    obtain ⟨hal, hl⟩ := List.nodup_cons.mp hl
    refine ⟨hs a (by simp), ih hl fun n hn => ?_⟩
    refine (hs n (by simp [hn])).imp (fun hns hm => ?_) id
    rcases NodeSet.mem_insert.mp hm with rfl | hm
    · exact hal hn
    · exact hns hm

end Move

theorem NodeSet.nodup (s : NodeSet) : s.toList.Nodup := s.sorted.imp Nat.ne_of_lt

namespace Chart

variable {c : Chart}

/-- The commands are those of moves that fit and lead from one configuration to another. -/
def Leads (c : Chart) (configuration next : NodeSet) (commands : List Command) : Prop :=
  ∃ moves, Move.FitAll configuration moves ∧ next = moves.foldl Move.apply configuration ∧
    Trail c moves commands

namespace Leads

variable {s t u : NodeSet} {commands more : List Command}

theorem refl (c : Chart) (s : NodeSet) : c.Leads s s [] := ⟨[], trivial, rfl, .nil⟩

theorem trans (h : c.Leads s t commands) (h' : c.Leads t u more) :
    c.Leads s u (commands ++ more) := by
  obtain ⟨moves, hf, rfl, ht⟩ := h
  obtain ⟨moves', hf', rfl, ht'⟩ := h'
  exact ⟨moves ++ moves', Move.fitAll_append.mpr ⟨hf, hf'⟩, by rw [List.foldl_append],
    ht.append ht'⟩

end Leads

/-! ## States inside their domains -/

/-- Every history state stands by default for states inside its parent. -/
def DefaultsInside (c : Chart) : Prop :=
  ∀ n < c.size, (c.node n).isHistory = true → ∀ t ∈ (c.node n).historyTarget,
    (c.node n).parent.any (c.isDescendant t) = true

instance : Decidable c.DefaultsInside :=
  inferInstanceAs (Decidable (∀ n < c.size, (c.node n).isHistory = true →
    ∀ t ∈ (c.node n).historyTarget, (c.node n).parent.any (c.isDescendant t) = true))

/-- The active states belong to the chart, and history states remember states inside their
parents. -/
structure Contained (c : Chart) (configuration : NodeSet) (history : Dict (List Nat)) : Prop where
  lt_size : ∀ n ∈ configuration, n < c.size
  noted : c.Noted (fun p states => ∀ t ∈ states, c.isDescendant t p = true) history

section Contained

variable {names : Names} (h : c.Accepted names)
include h

theorem historyDefault_inside {n p t : Nat} (hp : (c.node n).parent = some p)
    (hd : ∀ t ∈ (c.node n).historyTarget, (c.node n).parent.any (c.isDescendant t) = true)
    (ht : t ∈ c.historyDefault n) : c.isDescendant t p = true := by
  unfold historyDefault at ht
  split at ht
  · have hany := hd t ht
    rwa [hp] at hany
  · simp only [hp] at ht
    split at ht
    · exact h.isDescendant_of_parent ((mem_regions h.toIsTree).mp ht).1
    · exact h.isDescendant_of_parent (h.parent_of_initial (Option.mem_toList.mp ht))

/-- What history states stand for is inside their parents, if all that is remembered is. -/
theorem confined_of_noted (hd : c.DefaultsInside) {history : Dict (List Nat)}
    (hr : c.Noted (fun p states => ∀ t ∈ states, c.isDescendant t p = true) history) :
    c.Confined history := by
  intro n p hn hp t ht
  unfold restored at ht
  cases hg : history.get? (c.node n).id with
  | none => rw [hg] at ht; exact historyDefault_inside h hp (hd n (lt_size_of_parent hp) hn) ht
  | some states => rw [hg] at ht; exact hr n p states hn hp hg t ht

omit h in
theorem remembered_inside (h : c.IsTree) (configuration : NodeSet) (p : Nat) (mode : HistoryMode) :
    ∀ t ∈ Execution.remembered c configuration p mode, c.isDescendant t p = true := by
  intro t ht
  cases mode with
  | shallow => exact h.isDescendant_of_parent ((mem_activeChildren h).mp ht).1
  | deep => exact (List.mem_filter.mp ht).2

/-- What is noted when states are left is inside their parents. -/
theorem Contained.recordHistory {C E : Type} {x : Execution C E}
    (hx : c.Contained x.configuration x.history) (exits : NodeSet) :
    c.Noted (fun p states => ∀ t ∈ states, c.isDescendant t p = true)
      (Execution.recordHistory c exits x).history :=
  Noted.recordHistory h hx.noted
    fun _ _ _ _ mode => remembered_inside h.toIsTree x.configuration _ mode

variable (hd : c.DefaultsInside) {C E A : Type} {r : Registry C E A} {mode : Mode}
  {event : Event} {x y : Execution C E}
include hd

theorem enterInitial_leads (hx : x.configuration = ∅) (hh : x.history = [])
    (he : Execution.enterInitial c r mode event x = .ok y) :
    c.Contained y.configuration y.history ∧
      ∃ commands, y.commands = x.commands ++ commands ∧ c.Leads ∅ y.configuration commands := by
  obtain ⟨entries, hs, hm⟩ := Execution.enterInitial_spec he
  have hnote := noted_nil c fun p states => ∀ t ∈ states, c.isDescendant t p = true
  have hg := addInside_grows h (confined_of_noted h hd hnote) _ root h.root_lt ∅ entries hs
  obtain ⟨commands, hc, ht⟩ := hm.commands
  have hconf : y.configuration = (entries.toList.map Move.enter).foldl Move.apply ∅ := by
    rw [hm.configuration, hx]
  refine ⟨⟨fun n hn => ?_, by rw [hm.history, hh]; exact hnote⟩, commands, hc,
    _, Move.fitAll_enters entries.nodup fun n _ => .inl (NodeSet.mem_empty.mp ·), hconf, ht⟩
  rw [hconf, Execution.mem_foldl_enter] at hn
  have hn := hn.resolve_left (NodeSet.mem_empty.mp ·)
  rcases hg.gained n hn with hn | hn
  · exact absurd hn NodeSet.mem_empty.mp
  · rcases (brings_of_not_history (root_not_history h)).mp hn with rfl | hn
    · exact h.root_lt
    · exact h.lt_size hn

/-- A state that a microstep enters and that was active is left first, or is the root, which is
never left. -/
theorem Contained.entered (hx : c.Contained x.configuration x.history) {context : C}
    {handled : Event} {trigger : Trigger} {transitions : List Nat}
    (hs : r.select c x.configuration context handled trigger = .ok transitions) {entries : NodeSet}
    (he : c.entrySet (Execution.recordHistory c (c.exitSet x.configuration transitions) x).history
      transitions = some entries) {n : Nat} (hn : n ∈ entries) :
    n < c.size ∧ (n ∈ x.configuration → n ∈ c.exitSet x.configuration transitions ∨
      n = root ∧ ∃ t ∈ transitions, root ∈ (c.transition t).targets) := by
  have hsource := (Registry.selected_of_select h hx.lt_size hs).source_lt h hx.lt_size
  obtain ⟨t, ht, d, hdom, hnd | ⟨rfl, -, htarget⟩⟩ :=
    mem_entrySet h (fun _ _ d _ => (confined_of_noted h hd (hx.recordHistory h _)).inside d) hsource
      he hn
  · exact ⟨h.lt_size hnd, fun hc => .inl (mem_exitSet.mpr ⟨hc, t, ht, d, hdom, hnd⟩)⟩
  · exact ⟨h.root_lt, fun _ => .inr ⟨rfl, t, ht, htarget⟩⟩

/-- The moves of a microstep fit: all that is active inside the domains is left first, and only
states inside the domains are entered then, or the root. -/
theorem Contained.fits (hx : c.Contained x.configuration x.history) {context : C}
    {handled : Event} {trigger : Trigger} {transitions : List Nat}
    (hs : r.select c x.configuration context handled trigger = .ok transitions) {entries : NodeSet}
    (he : c.entrySet (Execution.recordHistory c (c.exitSet x.configuration transitions) x).history
      transitions = some entries) :
    Move.FitAll x.configuration
      (Execution.moves (c.exitSet x.configuration transitions) entries) := by
  have hent := fun n (hn : n ∈ entries) => (hx.entered h hd hs he hn).2
  generalize hex : c.exitSet x.configuration transitions = exits at hent
  have hexits : ∀ n ∈ exits, n ∈ x.configuration ∧ n ≠ root := by
    intro n hn
    rw [← hex] at hn
    obtain ⟨hc, -, -, d, -, hnd⟩ := mem_exitSet.mp hn
    exact ⟨hc, fun e => h.not_root_isDescendant d (e ▸ hnd)⟩
  refine Move.fitAll_append.mpr ⟨Move.fitAll_exits (List.nodup_reverse.mpr exits.nodup)
    fun n hn => hexits n (List.mem_reverse.mp hn), Move.fitAll_enters entries.nodup fun n hn => ?_⟩
  rw [Execution.mem_foldl_exit, List.mem_reverse]
  by_cases hr : n = root
  · exact .inr hr
  · exact .inl fun ⟨hc, hne⟩ => (hent n hn hc).elim hne fun ⟨e, _⟩ => hr e

/-- The moves of a microstep fit, and what is active then belongs to the chart. -/
theorem Contained.microstep (hx : c.Contained x.configuration x.history) {context : C}
    {handled : Event} {trigger : Trigger} {transitions : List Nat}
    (hs : r.select c x.configuration context handled trigger = .ok transitions)
    (hm : Execution.microstep c r mode transitions event x = .ok y) :
    c.Contained y.configuration y.history ∧
      ∃ commands, y.commands = x.commands ++ commands ∧
        c.Leads x.configuration y.configuration commands := by
  obtain ⟨entries, he, hmoved⟩ := Execution.microstep_spec hm
  obtain ⟨commands, hc, ht⟩ := hmoved.commands
  refine ⟨⟨fun n hn => ?_, by rw [hmoved.history]; exact hx.recordHistory h _⟩, commands, hc,
    _, hx.fits h hd hs he, hmoved.configuration, ht⟩
  rw [hmoved.configuration, Execution.mem_foldl_moves] at hn
  rcases hn with ⟨hc, -⟩ | hn
  · exact hx.lt_size n hc
  · exact (hx.entered h hd hs he hn).1

end Contained

end Chart

/-! ## Macrosteps -/

namespace Machine

open Chart

variable {C E A : Type} [BEq C] {m : Machine C E A} {names : Names}
  (h : m.chart.Accepted names) (hd : m.chart.DefaultsInside) {mode : Mode}
include h hd

theorem settle_leads {s : NodeSet} {trigger : Event} {x y : Execution C E}
    (hx : m.chart.Contained x.configuration x.history)
    (hl : m.chart.Leads s x.configuration x.commands) (he : m.settle mode trigger x = .ok y) :
    m.chart.Contained y.configuration y.history ∧ m.chart.Leads s y.configuration y.commands := by
  refine stabilize_invariant (P := fun x => m.chart.Contained x.configuration x.history ∧
    m.chart.Leads s x.configuration x.commands) (fun x y choice _ _ hx hs ht => ?_) ⟨hx, hl⟩ he
  obtain ⟨hc, commands, hcs, hl⟩ := Contained.microstep h hd
    (x := { x with internal := choice.internal }) hx.1 hs ht
  refine ⟨hc, ?_⟩
  rw [hcs]; exact hx.2.trans hl

/-- A start that succeeds enters its configuration by moves that fit. -/
theorem startStep_leads {step : Macrostep C} (hs : (m.startStep mode).result = .ok step) :
    m.chart.Contained step.snapshot.configuration step.snapshot.history ∧
      m.chart.Leads ∅ step.snapshot.configuration step.commands := by
  obtain ⟨x, y, hx, hy, rfl⟩ := startStep_ok hs
  obtain ⟨hc, commands, hcs, hl⟩ := enterInitial_leads h hd rfl rfl hx
  rw [List.nil_append] at hcs
  exact settle_leads h hd hc (hcs ▸ hl) hy

/-- A step that succeeds leads from configuration to configuration by moves that fit. -/
theorem step_leads {s : Snapshot C} {event : Event} {step : Macrostep C}
    (hs : m.chart.Contained s.configuration s.history)
    (he : (m.step s event mode).result = .ok step) :
    m.chart.Contained step.snapshot.configuration step.snapshot.history ∧
      m.chart.Leads s.configuration step.snapshot.configuration step.commands := by
  rcases step_ok he with rfl | ⟨transitions, x, y, hsel, hx, hy, rfl⟩
  · exact ⟨hs, .refl _ _⟩
  · obtain ⟨hc, commands, hcs, hl⟩ := Contained.microstep h hd (x := execution s) hs hsel hx
    rw [show (execution s : Execution C E).commands = [] from rfl, List.nil_append] at hcs
    exact settle_leads h hd hc (hcs ▸ hl) hy

end Machine

end Statechart
