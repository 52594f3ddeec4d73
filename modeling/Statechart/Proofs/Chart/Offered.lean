import Statechart.Proofs.Bounds.Closed
import Statechart.Proofs.Chart.Preorder
import Statechart.Proofs.Chart.Renumbered
import Statechart.Proofs.Selection

/-!
# What the states of a chart offer

The transitions of a state are declared in four places: its handlers, its completion, its delays,
and those without event. Two of these can be for one event type, since a handler may name a
generated type. The chart numbers all of them and files them by event type.

`Definition.declares` says in terms of the definition alone what a state declares for an event
type. `Chart.Carries` says that a chart has just that: nothing is lost on the way to it, nothing
stands in it twice, and the order is kept.

* `forall₂_menu`: what a state offers is what its slot declares, one by one.
* `mem_menu_iff`: a transition is offered by its source for its event type.
* `carries_of_build`: the chart of an accepted definition.
-/
namespace Statechart

/-! ## What a definition declares -/

namespace Definition

/-- The transitions that a state of that id declares for an event type, or without event. -/
def declares (d : Definition) (id : String) : Option String → List TransitionDef
  | some event =>
    (d.on.filter fun h => h.event = event).flatMap Handler.transitions
      ++ (if event = (Event.doneState id).type then d.onDone else [])
      ++ (d.after.filter fun a => Event.afterType a.delayMs id = event).flatMap Delay.transitions
  | none => d.always

end Definition

theorem Slot.declaredFor_eq (s : Slot) (key : Option String) :
    s.declaredFor key = s.definition.declares s.id key := by
  cases key with
  | none => rfl
  | some event =>
    have hdone : under event (if s.definition.onDone.isEmpty then []
          else [((Event.doneState s.id).type, s.definition.onDone)]) =
        if event = (Event.doneState s.id).type then s.definition.onDone else [] := by
      cases hd : s.definition.onDone with
      | nil => simp [under_nil]
      | cons t ts => simp [under_cons, under_nil, eq_comm]
    rw [declaredFor, groups, under_append, under_append, hdone, Definition.declares]
    simp only [under, List.filter_map, List.flatMap_map]
    rfl

/-- The transition of that number is what a state declares for an event type, or without event,
with a state for each of its targets. -/
structure Chart.Renders (c : Chart) (l : Layout) (n : Nat) (key : Option String) (t : Nat)
    (td : TransitionDef) : Prop where
  lt : t < c.transitions.size
  source : (c.transition t).source = n
  event : (c.transition t).event = key
  guard : (c.transition t).guard = td.guard
  actions : (c.transition t).actions = td.actions
  targets : td.target.map (l.target? n) = (c.transition t).targets.map some
  reenter : (c.transition t).reenter = td.reenter

namespace Layout

variable (l : Layout)

/-! ## Numbers and places -/

/-- Every number of a transition is that of a place in what one of the slots declares. -/
theorem exists_place (slots : List Slot) : ∀ (n first t : Nat),
    t < (l.transitionsFrom n slots).length → ∃ i s j td, slots[i]? = some s ∧
      s.declared[j]? = some td ∧ t = firstTransition first slots i - first + j := by
  induction slots with
  | nil => intro n first t ht; exact absurd ht (Nat.not_lt_zero t)
  | cons s rest ih =>
    intro n first t ht
    rw [transitionsFrom, List.length_append, List.length_map] at ht
    by_cases hs : t < s.declared.length
    · refine ⟨0, s, t, s.declared[t], rfl, List.getElem?_eq_getElem hs, ?_⟩
      rw [firstTransition_zero]
      omega
    · obtain ⟨i, s', j, td, hi, hj, hplace⟩ := ih (n + 1) 0 (t - s.declared.length) (by omega)
      refine ⟨i + 1, s', j, td, hi, hj, ?_⟩
      have hfirst : firstTransition first (s :: rest) (i + 1) =
          first + s.declared.length + firstTransition 0 rest i := by
        simp [firstTransition, Nat.add_assoc]
      rw [hfirst]
      omega

theorem pairwise_transitionsFrom (slots : List Slot) : ∀ n : Nat,
    (l.transitionsFrom n slots).Pairwise fun t u => t.source ≤ u.source := by
  induction slots with
  | nil => exact fun n => .nil
  | cons s rest ih =>
    intro n
    have hsame : ∀ t ∈ s.declared.map fun td => l.transition n td.1 td.2, t.source = n := by
      intro t ht
      obtain ⟨td, -, rfl⟩ := List.mem_map.mp ht
      rfl
    have hlater : ∀ t ∈ l.transitionsFrom (n + 1) rest, n < t.source := by
      intro t ht
      obtain ⟨i, s', td, -, -, rfl⟩ := exists_of_mem_transitionsFrom l ht
      show n < n + 1 + i
      omega
    rw [transitionsFrom, List.pairwise_append]
    refine ⟨List.pairwise_of_forall_mem_list fun t ht u hu => ?_, ih (n + 1), fun t ht u hu => ?_⟩
    · exact Nat.le_of_eq ((hsame t ht).trans (hsame u hu).symm)
    · rw [hsame t ht]; exact Nat.le_of_lt (hlater u hu)

/-- The number stands at a place of what a state offers if it is that of a declaration. -/
theorem mem_menu {n j : Nat} {td : Option String × TransitionDef} (hn : n < l.slots.size)
    (hj : (l.slot n).declared[j]? = some td) :
    firstTransition 0 l.slots.toList n + j ∈ (l.chart.node n).menu td.1 := by
  rw [node_chart l hn, menu_node]
  refine List.mem_map.mpr ⟨(td, _), List.mem_filter.mpr ⟨?_, decide_eq_true rfl⟩, rfl⟩
  rw [List.mk_mem_zipIdx_iff_le_and_getElem?_sub, Nat.add_sub_cancel_left]
  exact ⟨Nat.le_add_right _ _, hj⟩

theorem size_transitions : l.chart.transitions.size = (l.transitionsFrom 0 l.slots.toList).length :=
  List.size_toArray

/-- A transition is offered by its source for its event type, and nowhere else. -/
theorem mem_menu_iff {t : Nat} (ht : t < l.chart.transitions.size) (n : Nat)
    (key : Option String) : t ∈ (l.chart.node n).menu key ↔
      (l.chart.transition t).source = n ∧ (l.chart.transition t).event = key := by
  refine ⟨(Chart.numbered_chart l).offered, ?_⟩
  rintro ⟨rfl, rfl⟩
  rw [size_transitions] at ht
  obtain ⟨i, s, j, td, hi, hj, rfl⟩ := l.exists_place _ 0 0 t ht
  obtain ⟨hlt, rfl⟩ := List.getElem?_eq_some_iff.mp hi
  have hlt : i < l.slots.size := by simpa using hlt
  have hslot : l.slots.toList[i] = l.slot i := by simp [slot, hlt]
  rw [hslot] at hj
  rw [Nat.sub_zero, transition_chart l hlt hj]
  exact l.mem_menu hlt hj

/-! ## What is filed is what is declared -/

theorem map_targets {n : Nat} {targets : List String} (h : l.targetProblems n targets = []) :
    targets.map (l.target? n) = (l.targets n targets).map some := by
  have hsome : ∀ target ∈ targets, (l.target? n target).isSome = true := by
    simpa [targetProblems, List.filter_eq_nil_iff, Option.isSome_iff_ne_none] using h
  rw [Layout.targets, List.map_filterMap]
  induction targets with
  | nil => rfl
  | cons target rest ih =>
    obtain ⟨m, hm⟩ := Option.isSome_iff_exists.mp (hsome target List.mem_cons_self)
    have hrest : l.targetProblems n rest = [] := by
      simpa [targetProblems, hm] using h
    rw [List.map_cons, List.filterMap_cons, hm]
    simp only [Option.map_some]
    rw [ih hrest fun u hu => hsome u (List.mem_cons_of_mem _ hu)]

variable {l} {names : Names}

theorem targetProblems_eq_nil (h : l.problems names = []) {n : Nat} (hn : n < l.slots.size)
    {td : Option String × TransitionDef} (htd : td ∈ (l.slot n).declared) :
    l.targetProblems n td.2.target = [] := by
  simp only [problems, List.append_eq_nil_iff] at h
  obtain ⟨seen, hnone⟩ := behaviourProblems_of_from h.2 n (by simpa using hn)
  rw [Nat.zero_add] at hnone
  simp only [behaviourProblems, List.append_eq_nil_iff, List.flatMap_eq_nil_iff] at hnone
  have htransition := hnone.1.2 td htd
  simp only [transitionProblems, List.append_eq_nil_iff] at htransition
  exact htransition.1.2

/-- What a state offers is what its slot declares, one by one. -/
theorem forall₂_menu (h : l.problems names = []) {n : Nat} (hn : n < l.slots.size)
    (key : Option String) :
    List.Forall₂ (l.chart.Renders l n key) ((l.chart.node n).menu key) ((l.slot n).declaredFor key) := by
  let first := firstTransition 0 l.slots.toList n
  let entries := ((l.slot n).declared.zipIdx first).filter fun t => t.1.1 = key
  have hmenu : (l.chart.node n).menu key = entries.map Prod.snd := by
    rw [node_chart l hn, menu_node]; rfl
  have hdeclared : (l.slot n).declaredFor key = entries.map fun e => e.1.2 := by
    have hfilter : entries.map Prod.fst = ((l.slot n).declaredFor key).map (key, ·) := by
      rw [← Slot.filter_declared]
      conv_rhs => rw [← List.zipIdx_map_fst first (l.slot n).declared, List.filter_map]
      rfl
    calc (l.slot n).declaredFor key
        = (((l.slot n).declaredFor key).map (key, ·)).map Prod.snd := by
          rw [List.map_map]; exact (List.map_id _).symm
      _ = entries.map fun e => e.1.2 := by rw [← hfilter, List.map_map]; rfl
  rw [hmenu, hdeclared, List.forall₂_map_left_iff, List.forall₂_map_right_iff, List.forall₂_same]
  rintro ⟨td, t⟩ he
  obtain ⟨hmem, hkey⟩ := List.mem_filter.mp he
  obtain ⟨hle, hj⟩ := List.mk_mem_zipIdx_iff_le_and_getElem?_sub.mp hmem
  obtain ⟨j, rfl⟩ := Nat.exists_eq_add_of_le hle
  rw [Nat.add_sub_cancel_left] at hj
  have htransition : l.chart.transition (first + j) = l.transition n td.1 td.2 :=
    transition_chart l hn hj
  have hlt : first + j < l.chart.transitions.size := by
    have hget := getElem?_transitionsFrom l l.slots.toList 0 0 n (l.slot n) (by simp [slot, hn]) j
      td hj
    rw [size_transitions]
    simpa using (List.getElem?_eq_some_iff.mp hget).1
  refine ⟨hlt, ?_, ?_, ?_, ?_, ?_, ?_⟩ <;> rw [htransition]
  · rfl
  · exact of_decide_eq_true hkey
  · rfl
  · rfl
  · exact l.map_targets (targetProblems_eq_nil h hn (List.mem_of_getElem? hj))
  · rfl

end Layout

/-! ## The chart of an accepted definition -/

namespace Chart

/-- The chart offers the transitions that a definition declares: each of them once, in the order of
their declaration, and numbered in the document order of their sources. -/
structure Carries (c : Chart) (d : Definition) : Prop where
  size : c.size = d.preorder.length
  key : ∀ {n s}, d.preorder[n]? = some s → (c.node n).key = s.key
  transitionsFor : ∀ {n s}, d.preorder[n]? = some s → ∀ event,
    List.Forall₂ (c.Renders (Layout.ofDefinition d) n (some event))
      ((c.node n).transitionsFor event) (s.declares (c.node n).id (some event))
  always : ∀ {n s}, d.preorder[n]? = some s →
    List.Forall₂ (c.Renders (Layout.ofDefinition d) n none) (c.node n).always s.always
  /-- Among the lists of all states, a transition stands once in one of its source. -/
  count : ∀ t < c.transitions.size, ∀ n key, ((c.node n).menu key).count t =
    if (c.transition t).source = n ∧ (c.transition t).event = key then 1 else 0
  sorted : ∀ t u, t ≤ u → u < c.transitions.size →
    (c.transition t).source ≤ (c.transition u).source

/-- The chart of an accepted definition offers what the definition declares, and every
transition of it at one place. -/
theorem carries_of_build {names : Names} {d : Definition} {c : Chart}
    (h : Chart.build names d = .ok c) : c.Carries d := by
  obtain ⟨hproblems, rfl⟩ := build_ok.mp h
  have hpreorder : (Layout.ofDefinition d).slots.toList.map Slot.definition = d.preorder :=
    preorder_slotsFrom none d.key 0 0 d
  generalize hl : Layout.ofDefinition d = l at hproblems hpreorder ⊢
  have hsize := l.size_chart
  have hslot : ∀ {n s}, d.preorder[n]? = some s →
      n < l.slots.size ∧ (l.slot n).definition = s := by
    intro n s hs
    rw [← hpreorder, List.getElem?_map, Option.map_eq_some_iff] at hs
    obtain ⟨slot, hget, rfl⟩ := hs
    obtain ⟨hn, rfl⟩ := List.getElem?_eq_some_iff.mp hget
    have hn : n < l.slots.size := by simpa using hn
    exact ⟨hn, by simp [Layout.slot, hn]⟩
  have hmenu : ∀ {n s}, d.preorder[n]? = some s → ∀ key,
      List.Forall₂ (l.chart.Renders l n key) ((l.chart.node n).menu key)
        (s.declares (l.chart.node n).id key) := by
    intro n s hs key
    obtain ⟨hn, rfl⟩ := hslot hs
    have hid : (l.chart.node n).id = (l.slot n).id := by rw [l.node_chart hn]; rfl
    rw [hid, ← Slot.declaredFor_eq]
    exact Layout.forall₂_menu hproblems hn key
  exact {
    size := by rw [← hpreorder, hsize, List.length_map, Array.length_toList]
    key := fun hs => by
      obtain ⟨hn, rfl⟩ := hslot hs
      rw [l.node_chart hn]
      rfl
    transitionsFor := fun hs event => by rw [hl]; exact hmenu hs (some event)
    always := fun hs => by rw [hl]; exact hmenu hs none
    count := fun t ht n key => by
      rw [((numbered_chart l).nodup n key).count]
      exact if_congr (l.mem_menu_iff ht n key) rfl rfl
    sorted := fun t u htu hu => by
      have hsorted := l.pairwise_transitionsFrom l.slots.toList 0
      rw [l.size_transitions] at hu
      rcases Nat.eq_or_lt_of_le htu with rfl | htu
      · exact Nat.le_refl _
      · have hpair := List.pairwise_iff_getElem.mp hsorted t u (Nat.lt_trans htu hu) hu htu
        simpa [Chart.transition, Layout.chart, hu, Nat.lt_trans htu hu] using hpair }

/-- A dishwasher with handlers for what its programme and its time-out are delivered as, and two
handlers for one event. -/
def dishwasher : Definition where
  key := "dishwasher"
  initial := "wash"
  states := [
    { key := "wash"
      initial := "spin"
      states := [
        { key := "spin", on := [⟨"DRY", [{ target := ["dry"] }]⟩] },
        { key := "dry", kind := some .final }]
      on := [⟨"done.state.dishwasher.wash", [{ guard := "open" }]⟩, ⟨"STOP", [{ guard := "open" }]⟩,
        ⟨"after(90)#dishwasher.wash", [{ target := [".dry"], guard := "open" }]⟩,
        ⟨"STOP", [{ target := ["off"] }]⟩]
      onDone := [{ target := ["off"] }]
      after := [⟨90, [{ target := ["#dishwasher.off"] }]⟩] },
    { key := "off", kind := some .final }]

/-- What comes from two places is offered in the order of the places. -/
theorem carries_dishwasher : ∃ c,
    Chart.build ⟨(· == "open"), fun _ => false, fun _ => false⟩ dishwasher = .ok c ∧
    (c.node 1).transitionsFor "done.state.dishwasher.wash" = [0, 4] ∧
    (c.node 1).transitionsFor "STOP" = [1, 3] ∧
    (c.node 1).transitionsFor "after(90)#dishwasher.wash" = [2, 5] ∧ c.Carries dishwasher := by
  have hmenus : (Chart.build ⟨(· == "open"), fun _ => false, fun _ => false⟩
      dishwasher).toOption.any (fun c => decide (
        (c.node 1).transitionsFor "done.state.dishwasher.wash" = [0, 4] ∧
        (c.node 1).transitionsFor "STOP" = [1, 3] ∧
        (c.node 1).transitionsFor "after(90)#dishwasher.wash" = [2, 5])) = true := by
    decide +kernel
  obtain ⟨c, hb, hmenus⟩ := exists_ok_of_any hmenus
  obtain ⟨hdone, hstop, hafter⟩ := of_decide_eq_true hmenus
  exact ⟨c, hb, hdone, hstop, hafter, carries_of_build hb⟩

end Chart

end Statechart
