import Mathlib.Data.Option.Defs
import Statechart.Proofs.Chart.Renumbered
import Statechart.Proofs.Macrostep.Run

/-!
# Macrosteps under other numbers

On charts that differ in the numbers of their transitions, twins are permitted together, win
against twins, exit and enter the same states and run the same actions. So the same is selected in
the same order, a moment comes back when it does on the other chart, and a cycle is told in the
same words: every macrostep comes to the same, with the same failures.

* `microstep`: twins are taken with one result.
* `select`: twins are selected in one order.
* `stabilize`: the loop goes through the same rounds.
* `startStep`, `step`, `exitStep`: macrosteps.
* `renumbered_gathered`, `renumbered_merged`: machines of definitions that are regrouped.
-/
namespace Statechart

/-! ## Results that agree -/

/-- The same failure, or results that are related. -/
inductive Agree {ε α β : Type} (P : α → β → Prop) : Except ε α → Except ε β → Prop
  | error (e : ε) : Agree P (.error e) (.error e)
  | ok {a b} (h : P a b) : Agree P (.ok a) (.ok b)

namespace Agree

variable {ε α β γ δ : Type} {P : α → β → Prop} {Q : γ → δ → Prop}

theorem bind {x : Except ε α} {y : Except ε β} {f : α → Except ε γ} {g : β → Except ε δ}
    (h : Agree P x y) (hf : ∀ a b, P a b → Agree Q (f a) (g b)) : Agree Q (x >>= f) (y >>= g) := by
  cases h with
  | error e => exact .error e
  | ok hab => exact hf _ _ hab

theorem bind_eq {x : Except ε α} {y : Except ε β} {f : α → Except ε γ} {g : β → Except ε γ}
    (h : Agree P x y) (hf : ∀ a b, P a b → g b = f a) : y >>= g = x >>= f := by
  cases h with
  | error e => rfl
  | ok hab => exact hf _ _ hab

theorem mapError {ε' : Type} {x : Except ε α} {y : Except ε β} (h : Agree P x y) (f : ε → ε') :
    Agree P (x.mapError f) (y.mapError f) := by
  cases h with
  | error e => exact .error (f e)
  | ok hab => exact .ok hab

theorem mapM {f : γ → Except ε α} {g : γ → Except ε β} (hf : ∀ c, Agree P (f c) (g c)) :
    ∀ l : List γ, Agree (List.Forall₂ P) (l.mapM f) (l.mapM g)
  | [] => .ok .nil
  | c :: l => by
    rw [List.mapM_cons, List.mapM_cons]
    exact (hf c).bind fun _ _ hab => (mapM hf l).bind fun _ _ hl => .ok (.cons hab hl)

theorem of_eq {P : α → α → Prop} (hP : ∀ a, P a a) (x : Except ε α) : Agree P x x := by
  cases x with
  | error e => exact .error e
  | ok a => exact .ok (hP a)

end Agree

namespace Chart.Renumbered

variable {C E A : Type} {c c' : Chart} (h : c.Renumbered c') {history : Dict (List Nat)}
include h

/-! ## Domains and entries -/

theorem domain {t t' : Nat} (ht : c.Twin c' t t') : c'.domain t' = c.domain t := by
  have hinternal : ∀ t, c'.isInternal t = c.isInternal t := fun t => by
    simp only [Chart.isInternal, h.isCompound, h.isDescendant]
  simp only [Chart.domain, h.transition ht, hinternal, h.commonCompound]

theorem exitSet {ts ts' : List Nat} (hts : List.Forall₂ (c.Twin c') ts ts')
    (configuration : NodeSet) : c'.exitSet configuration ts' = c.exitSet configuration ts := by
  have hany : ∀ n, (ts'.any fun t => c'.exits t n) = ts.any fun t => c.exits t n := fun n => by
    induction hts with
    | nil => rfl
    | cons ht _ ih =>
      rw [List.any_cons, List.any_cons, ih, Chart.exits, Chart.exits, h.domain ht, h.isDescendant]
  simp only [Chart.exitSet, hany]

theorem restored : c'.restored = c.restored := by
  funext history n
  simp only [Chart.restored, Chart.historyDefault, h.id, h.historyTarget, h.parent, h.isParallel,
    h.regions, h.initial]

theorem addMissingRegions : c'.addMissingRegions = c.addMissingRegions := by
  have hcovers : c'.covers = c.covers := by
    funext states n
    simp only [Chart.covers, h.isDescendant]
  funext add n states
  simp only [Chart.addMissingRegions, hcovers, h.regions]

theorem addAncestors : c'.addAncestors = c.addAncestors := by
  funext add d n states
  simp only [Chart.addAncestors, h.ancestorsUntil, h.isParallel, h.addMissingRegions]

theorem enter : c'.enter = c.enter := by
  have hinside : ∀ history calls, c'.addInside history calls = c.addInside history calls := by
    intro history calls
    induction calls with
    | zero => rfl
    | succ calls ih =>
      funext n states
      simp only [Chart.addInside, ih, h.isHistory, h.parent, h.restored, h.addAncestors,
        h.isCompound, h.initial, h.isParallel, h.addMissingRegions]
  funext history n states
  simp only [Chart.enter, Chart.entryBound, h.size, hinside]

theorem addEntries {t t' : Nat} (ht : c.Twin c' t t') (states : NodeSet) :
    c'.addEntries history states t' = c.addEntries history states t := by
  have heffective : c'.effectiveTargets history = c.effectiveTargets history := by
    funext n
    simp only [Chart.effectiveTargets, h.isHistory, h.restored]
  simp only [Chart.addEntries, h.domain ht, h.transition ht, h.enter, heffective, h.addAncestors,
    h.isParallel, h.addMissingRegions]

theorem entrySet {ts ts' : List Nat} (hts : List.Forall₂ (c.Twin c') ts ts') :
    c'.entrySet history ts' = c.entrySet history ts := by
  have hfold : ∀ states, ts'.foldlM (c'.addEntries history) states =
      ts.foldlM (c.addEntries history) states := by
    induction hts with
    | nil => exact fun _ => rfl
    | cons ht _ ih =>
      intro states
      simp only [List.foldlM_cons, h.addEntries ht, ih]
  exact hfold ∅

theorem ofConfiguration : StateValue.ofConfiguration c' = StateValue.ofConfiguration c := by
  have hwithin : ∀ configuration levels n,
      StateValue.ofConfigurationWithin c' configuration levels n =
        StateValue.ofConfigurationWithin c configuration levels n := by
    intro configuration levels
    induction levels with
    | zero => exact fun _ => rfl
    | succ levels ih =>
      intro n
      simp only [StateValue.ofConfigurationWithin, h.activeChildren, h.isParallel, h.key, h.isLeaf,
        ih]
  funext n configuration
  simp only [StateValue.ofConfiguration, h.size, hwithin]

/-! ## Microsteps -/

theorem recordHistory (exits : NodeSet) (x : Execution C E) :
    Execution.recordHistory c' exits x = Execution.recordHistory c exits x := by
  have hremembered : Execution.remembered c' = Execution.remembered c := by
    funext configuration n mode
    cases mode <;>
      simp only [Execution.remembered, h.activeChildren, h.activeLeaves, h.isDescendant]
  have hchildren : Execution.recordChildren c' = Execution.recordChildren c := by
    funext configuration history n
    simp only [Execution.recordChildren, hremembered, h.children, h.history, h.id]
  simp only [Execution.recordHistory, hchildren]

variable {r : Registry C E A} {mode : Mode} {event : Event}

theorem exitState : Execution.exitState c' r mode event = Execution.exitState c r mode event := by
  funext x n
  simp only [Execution.exitState, Command.onExit, h.exit, h.after, h.invoke]

theorem raiseCompletion (n : Nat) (x : Execution C E) :
    Execution.raiseCompletion c' n x = Execution.raiseCompletion c n x := by
  simp only [Execution.raiseCompletion, h.parent, h.id, h.isParallel, h.isComplete]

theorem enterSet (entries : Option NodeSet) (x : Execution C E) :
    Execution.enterSet c' r mode event entries x = Execution.enterSet c r mode event entries x := by
  have hstate : Execution.enterState c' r mode event = Execution.enterState c r mode event := by
    funext x n
    simp only [Execution.enterState, Command.onEntry, h.entry, h.after, h.invoke, h.isFinal,
      h.raiseCompletion]
  simp only [Execution.enterSet, Execution.enterStates, hstate]

theorem enterInitial (x : Execution C E) :
    Execution.enterInitial c' r mode event x = Execution.enterInitial c r mode event x := by
  simp only [Execution.enterInitial, Chart.initialEntrySet, h.enter, h.enterSet]

theorem exitAll (x : Execution C E) :
    Execution.exitAll c' r mode event x = Execution.exitAll c r mode event x := by
  simp only [Execution.exitAll, Execution.exitStates, h.exitState]

/-- Twins are taken with one result. -/
theorem microstep {ts ts' : List Nat} (hts : List.Forall₂ (c.Twin c') ts ts')
    (x : Execution C E) : Execution.microstep c' r mode ts' event x =
      Execution.microstep c r mode ts event x := by
  have hactions : ∀ x : Execution C E,
      ts'.foldlM (fun x t => x.runActions r mode event (c'.transition t).actions) x =
        ts.foldlM (fun x t => x.runActions r mode event (c.transition t).actions) x := by
    induction hts with
    | nil => exact fun _ => rfl
    | cons ht _ ih =>
      intro x
      simp only [List.foldlM_cons, h.transition ht, ih]
  simp only [Execution.microstep, h.exitSet hts, h.recordHistory, Execution.exitStates, h.exitState,
    hactions, h.entrySet hts, h.enterSet]

/-! ## Selection -/

theorem offered (trigger : Trigger) (event : Event) (n : Nat) :
    List.Forall₂ (c.Twin c') (c.offered trigger event n) (c'.offered trigger event n) := by
  cases trigger with
  | event => exact h.twins n (some event.type)
  | eventless => exact h.twins n none

theorem candidates (trigger : Trigger) (event : Event) (leaf : Nat) :
    List.Forall₂ (c.Twin c') (c.candidates trigger event leaf)
      (c'.candidates trigger event leaf) := by
  rw [Chart.candidates, Chart.candidates, h.ancestors]
  induction leaf :: c.ancestors leaf with
  | nil => exact .nil
  | cons n rest ih =>
    rw [List.flatMap_cons, List.flatMap_cons]
    exact List.rel_append (h.offered trigger event n) ih

theorem firstPermitted (context : C) (event : Event) {ts ts' : List Nat}
    (hts : List.Forall₂ (c.Twin c') ts ts') :
    Agree (Option.Rel (c.Twin c')) (r.firstPermitted c context event ts)
      (r.firstPermitted c' context event ts') := by
  induction hts with
  | nil => exact .ok .none
  | @cons t t' _ _ ht _ ih =>
    have hpermits : r.permits c' context event t' = r.permits c context event t := by
      simp only [Registry.permits, h.transition ht]
    rw [Registry.firstPermitted, Registry.firstPermitted, hpermits]
    refine (Agree.of_eq (fun _ => rfl) _).bind ?_
    rintro passes _ rfl
    cases passes with
    | true => exact .ok (.some ht)
    | false => exact ih

theorem settle {configuration : NodeSet} {kept kept' : List Nat} {t t' : Nat}
    (hkept : List.Forall₂ (c.Twin c') kept kept') (ht : c.Twin c' t t') :
    List.Forall₂ (c.Twin c') (c.settle configuration kept t)
      (c'.settle configuration kept' t') := by
  have hconflict : ∀ {k k'}, c.Twin c' k k' →
      c.conflict configuration t k = c'.conflict configuration t' k' := fun hk => by
    rw [Chart.conflict, Chart.conflict, h.exitSet (.cons ht .nil), h.exitSet (.cons hk .nil)]
  have hrivals := List.rel_filter (p := fun k => c.conflict configuration t k)
    (q := fun k => c'.conflict configuration t' k)
    (fun _ _ hk => Iff.of_eq (congrArg (· = true) (hconflict hk))) hkept
  have hothers := List.rel_filter (p := fun k => !c.conflict configuration t k)
    (q := fun k => !c'.conflict configuration t' k)
    (fun _ _ hk => Iff.of_eq (congrArg (fun b => (!b) = true) (hconflict hk))) hkept
  have hall : ∀ {l l' : List Nat}, List.Forall₂ (c.Twin c') l l' →
      (l'.all fun k => c'.isDeeper t' k) = l.all fun k => c.isDeeper t k := fun hl => by
    induction hl with
    | nil => rfl
    | cons hk _ ih =>
      rw [List.all_cons, List.all_cons, ih, Chart.isDeeper, Chart.isDeeper, h.transition ht,
        h.transition hk, h.isDescendant]
  unfold Chart.settle
  dsimp only
  rw [hall hrivals]
  split
  · exact List.rel_append hothers (.cons ht .nil)
  · exact hkept

variable (hc : c.Numbered) (hc' : c'.Numbered)
include hc hc'

/-- Twins are selected in one order. -/
theorem select (configuration : NodeSet) (context : C) (event : Event) (trigger : Trigger) :
    Agree (List.Forall₂ (c.Twin c')) (r.select c configuration context event trigger)
      (r.select c' configuration context event trigger) := by
  have hpicks : Agree (List.Forall₂ (c.Twin c')) (r.picks c configuration context event trigger)
      (r.picks c' configuration context event trigger) := by
    rw [Registry.picks, Registry.picks, h.activeLeaves]
    refine (Agree.mapM (fun leaf => h.firstPermitted context event
      (h.candidates trigger event leaf)) _).bind fun picks picks' hp => .ok ?_
    have hsame : Relator.LiftFun (Option.Rel (c.Twin c')) (Option.Rel (c.Twin c'))
        (fun pick => pick) fun pick => pick := fun _ _ hpick => hpick
    exact forall₂_eraseDups (Twin.biUnique hc hc') (List.rel_filterMap hsame hp)
  have hsettle : Relator.LiftFun (List.Forall₂ (c.Twin c'))
      (Relator.LiftFun (c.Twin c') (List.Forall₂ (c.Twin c')))
      (c.settle configuration) (c'.settle configuration) :=
    fun _ _ hkept _ _ ht => h.settle hkept ht
  exact hpicks.bind fun picks picks' hp => .ok (List.rel_foldl hsettle .nil hp)

end Chart.Renumbered

/-! ## Machines -/

/-- The same choice under other numbers. -/
structure Choice.Twin (c c' : Chart) (k k' : Choice) : Prop where
  transitions : List.Forall₂ (c.Twin c') k.transitions k'.transitions
  event : k'.event = k.event
  internal : k'.internal = k.internal

/-- The same moment under other numbers. -/
structure Moment.Twin {C : Type} (c c' : Chart) (a a' : Moment C) : Prop where
  transitions : List.Forall₂ (c.Twin c') a.transitions a'.transitions
  configuration : a'.configuration = a.configuration
  context : a'.context = a.context
  history : a'.history = a.history
  internal : a'.internal = a.internal

namespace Machine

/-- Machines that differ in the numbers of their transitions. -/
structure Renumbered {C E A : Type} (m m' : Machine C E A) : Prop where
  chart : m.chart.Renumbered m'.chart
  numbered : m.chart.Numbered
  numbered' : m'.chart.Numbered
  registry : m'.registry = m.registry
  context : m'.context = m.context
  maxMicrosteps : m'.maxMicrosteps = m.maxMicrosteps

namespace Renumbered

variable {C E A : Type} {m m' : Machine C E A} (h : m.Renumbered m')
include h

theorem isDone (configuration : NodeSet) : m'.isDone configuration = m.isDone configuration := by
  rw [Machine.isDone, Machine.isDone, h.chart.isComplete]

theorem select (configuration : NodeSet) (context : C) (event : Event) (trigger : Trigger) :
    Agree (List.Forall₂ (m.chart.Twin m'.chart))
      (m.registry.select m.chart configuration context event trigger)
      (m'.registry.select m'.chart configuration context event trigger) := by
  rw [h.registry]
  exact h.chart.select h.numbered h.numbered' configuration context event trigger

/-- The same is taken next. -/
theorem choose (configuration : NodeSet) (context : C) :
    ∀ (internal : List Event) (current : Event), Agree (Option.Rel (Choice.Twin m.chart m'.chart))
      (m.choose configuration context current internal)
      (m'.choose configuration context current internal)
  | [], current => by
    rw [Machine.choose, Machine.choose]
    refine (h.select configuration context current .eventless).bind fun ts ts' hts => .ok ?_
    cases hts with
    | nil => exact .none
    | cons ht hts => exact .some ⟨.cons ht hts, rfl, rfl⟩
  | raised :: rest, current => by
    rw [Machine.choose, Machine.choose]
    refine (h.select configuration context current .eventless).bind fun ts ts' hts => ?_
    cases hts with
    | cons ht hts => exact .ok (.some ⟨.cons ht hts, rfl, rfl⟩)
    | nil =>
      refine (h.select configuration context raised .event).bind fun us us' hus => ?_
      cases hus with
      | cons hu hus => exact .ok (.some ⟨.cons hu hus, rfl, rfl⟩)
      | nil => exact choose configuration context rest raised

theorem next? (current : Event) (x : Execution C E) :
    Agree (Option.Rel (Choice.Twin m.chart m'.chart)) (m.next? current x) (m'.next? current x) := by
  rw [Machine.next?, Machine.next?, h.isDone]
  split
  · exact .ok .none
  · exact (h.choose _ _ _ _).mapError _

theorem same [BEq C] {a a' b b' : Moment C} (ha : Moment.Twin m.chart m'.chart a a')
    (hb : Moment.Twin m.chart m'.chart b b') : a'.same b' = a.same b := by
  have htransitions : (a'.transitions == b'.transitions) = (a.transitions == b.transitions) := by
    rw [Bool.eq_iff_iff, beq_iff_eq, beq_iff_eq]
    exact (Relator.rel_eq (Chart.Twin.biUnique h.numbered h.numbered').forall₂
      ha.transitions hb.transitions).symm
  rw [Moment.same, Moment.same, htransitions, ha.configuration, hb.configuration, ha.context,
    hb.context, ha.history, hb.history, ha.internal, hb.internal]

theorem describe {t t' : Nat} (ht : m.chart.Twin m'.chart t t') :
    m'.describe t' = m.describe t := by
  simp only [Machine.describe, h.chart.transition ht, h.chart.id]

theorem map_describe {ts ts' : List Nat} (hts : List.Forall₂ (m.chart.Twin m'.chart) ts ts') :
    ts'.map m'.describe = ts.map m.describe := by
  induction hts with
  | nil => rfl
  | cons ht _ ih => rw [List.map_cons, List.map_cons, h.describe ht, ih]

theorem cycleFailure (trigger : Event) {a a' : Moment C}
    (ha : Moment.Twin m.chart m'.chart a a') :
    m'.cycleFailure trigger a' = m.cycleFailure trigger a := by
  rw [Machine.cycleFailure, Machine.cycleFailure, h.map_describe ha.transitions, ha.configuration,
    h.chart.ofConfiguration]

theorem take (mode : Mode) (x : Execution C E) {k k' : Choice}
    (hk : Choice.Twin m.chart m'.chart k k') : m'.take mode x k' = m.take mode x k := by
  rw [Machine.take, Machine.take, h.registry, h.chart.microstep hk.transitions, hk.event,
    hk.internal]

theorem any_same [BEq C] {a a' : Moment C} (ha : Moment.Twin m.chart m'.chart a a')
    {seen seen' : List (Moment C)}
    (hseen : List.Forall₂ (Moment.Twin m.chart m'.chart) seen seen') :
    seen'.any a'.same = seen.any a.same := by
  induction hseen with
  | nil => rfl
  | cons hb _ ih => rw [List.any_cons, List.any_cons, h.same ha hb, ih]

theorem finish (event : Event) (done changed : Bool) :
    m'.finish event done changed = m.finish event done changed := by
  funext x
  rw [Machine.finish, Machine.finish, h.chart.ofConfiguration]

variable (mode : Mode)

/-- Leaving all states comes to the same. -/
theorem exitStep (s : Snapshot C) : m'.exitStep s mode = m.exitStep s mode := by
  simp only [Machine.exitStep, h.finish, h.registry, h.chart.exitAll]

variable [BEq C]

/-- The loop goes through the same rounds. -/
theorem stabilize (trigger : Event) : ∀ (budget : Nat) {seen seen' : List (Moment C)}
    (current : Event) (x : Execution C E), List.Forall₂ (Moment.Twin m.chart m'.chart) seen seen' →
    m'.stabilize mode trigger budget seen' current x =
      m.stabilize mode trigger budget seen current x
  | budget, seen, seen', current, x, hseen => by
    rw [stabilize_eq, stabilize_eq]
    refine (h.next? current x).bind_eq fun k k' hk => ?_
    cases hk with
    | none => rfl
    | @some k k' hk =>
      have hmoment : Moment.Twin m.chart m'.chart (momentOf x k) (momentOf x k') :=
        ⟨hk.transitions, rfl, rfl, rfl, hk.internal⟩
      dsimp only
      rw [h.any_same hmoment hseen, h.cycleFailure trigger hmoment, h.take mode x hk, hk.event,
        h.maxMicrosteps]
      split
      · rfl
      · cases budget with
        | zero => rfl
        | succ budget =>
          exact bind_congr fun y => stabilize trigger budget k.event y (.cons hmoment hseen)

theorem settle (trigger : Event) : m'.settle mode trigger = m.settle mode trigger := by
  funext x
  rw [Machine.settle, Machine.settle, h.maxMicrosteps, h.stabilize mode trigger _ _ _ .nil]

/-- A start comes to the same. -/
theorem startStep : m'.startStep mode = m.startStep mode := by
  simp only [Machine.startStep, Machine.runStart, h.registry, h.context, h.chart.enterInitial,
    h.settle, h.finish, h.isDone]

/-- An event comes to the same. -/
theorem step (s : Snapshot C) (event : Event) : m'.step s event mode = m.step s event mode := by
  have hrun : ∀ {ts ts' : List Nat}, List.Forall₂ (m.chart.Twin m'.chart) ts ts' →
      m'.runStep mode s event ts' = m.runStep mode s event ts := fun hts => by
    rw [Machine.runStep, Machine.runStep, h.registry, h.chart.microstep hts, h.settle]
  have hselect := h.select s.configuration s.context event .event
  rw [Machine.step, Machine.step]
  simp only [h.finish, h.isDone]
  split
  · rfl
  · generalize m.registry.select m.chart s.configuration s.context event .event = r,
      m'.registry.select m'.chart s.configuration s.context event .event = r' at hselect
    cases hselect with
    | error e => rfl
    | ok hts =>
      cases hts with
      | nil => rfl
      | cons ht hts => dsimp only; rw [hrun (.cons ht hts)]

end Renumbered

/-- The same machine with each event delivered once after the entry of a state. -/
def once {C E A : Type} (m : Machine C E A) : Machine C E A := { m with chart := m.chart.once }

/-! ### Definitions that are regrouped -/

section Built

variable {C E A : Type} {registry : Registry C E A} {context : C} {maxMicrosteps : Nat}
  {d : Definition} {m : Machine C E A}
  (hb : build registry context maxMicrosteps d = .ok m)
include hb

/-- A definition that is accepted is accepted regrouped. -/
theorem build_regrouped (keep : Bool) : ∃ m' l l', build registry context maxMicrosteps
    (d.regrouped keep) = .ok m' ∧ Layout.Regrouped keep l l' ∧ m.chart = l.chart ∧
      m' = { m with chart := l'.chart } := by
  have hregrouped := Layout.regrouped_ofDefinition keep d
  simp only [build, bind_ok, pure_ok] at hb
  obtain ⟨c, hc, rfl⟩ := hb
  obtain ⟨hp, rfl⟩ := Chart.build_ok.mp hc
  have hc' := Chart.build_ok.mpr ⟨hregrouped.problems hp, rfl⟩
  exact ⟨_, _, _, by rw [build, hc']; rfl, hregrouped, rfl, rfl⟩

/-- Gathering gives other numbers to transitions, and changes nothing else. -/
theorem renumbered_gathered :
    ∃ m', build registry context maxMicrosteps d.gathered = .ok m' ∧ m.Renumbered m' := by
  obtain ⟨m', l, l', hb', hregrouped, hchart, rfl⟩ := build_regrouped hb true
  refine ⟨_, hb', ?_, ?_, Chart.numbered_chart l', rfl, rfl, rfl⟩
  · rw [hchart]; exact hregrouped.renumbered
  · rw [hchart]; exact Chart.numbered_chart l

/-- Merging also leaves out what is delivered again, and changes nothing else. -/
theorem renumbered_merged :
    ∃ m', build registry context maxMicrosteps d.merged = .ok m' ∧ m.once.Renumbered m' := by
  obtain ⟨m', l, l', hb', hregrouped, hchart, rfl⟩ := build_regrouped hb false
  refine ⟨_, hb', ?_, ?_, Chart.numbered_chart l', rfl, rfl, rfl⟩
  · rw [once, hchart]; exact hregrouped.renumbered_once
  · rw [once, hchart]; exact (Chart.numbered_chart l).once

end Built

end Machine

end Statechart
