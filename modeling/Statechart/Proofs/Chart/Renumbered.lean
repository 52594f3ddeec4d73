import Statechart.Proofs.Chart.Regroup

/-!
# Transitions under other numbers

Nothing but the numbers of transitions distinguishes two charts if their states are the same and
offer the same transitions in the same order (`Chart.Renumbered`). Two transitions at one place of
what a state offers are twins (`Chart.Twin`). In a built chart a transition stands at one place
only (`Chart.Numbered`), so it has one twin, and whether two numbers are the same can be told from
their twins. Whatever looks at states alone is the same for both charts.

* `map_menu`: what a state of a built chart offers is what it declares.
* `biUnique`: twins pair the transitions off.
* `renumbered`, `renumbered_once`: what regrouping does to a chart.
-/
namespace Statechart

/-! ## What a state offers -/

/-- The transitions that a state offers for an event type, or without event, in their order. -/
def Node.menu (n : Node) : Option String → List Nat
  | some event => n.transitionsFor event
  | none => n.always

/-- The same state with each event delivered once after its entry. -/
def Node.once (n : Node) : Node := { n with after := n.after.eraseDups }

theorem Node.menu_once (n : Node) (key : Option String) : n.once.menu key = n.menu key := by
  cases key <;> rfl

namespace Layout

theorem getD_lookup_cons (event : String) (g : String × List Nat)
    (rest : List (String × List Nat)) : ((g :: rest).lookup event).getD [] =
      if g.1 = event then g.2 else (rest.lookup event).getD [] := by
  rw [List.lookup_cons]
  by_cases h : g.1 = event
  · rw [if_pos h, h, beq_self_eq_true]; rfl
  · rw [if_neg h, beq_false_of_ne (Ne.symm h)]

theorem getD_lookup_join (event key : String) (ts : List Nat) :
    ∀ groups : List (String × List Nat), ((join key ts groups).lookup event).getD [] =
      (groups.lookup event).getD [] ++ if key = event then ts else []
  | [] => by rw [join, getD_lookup_cons]; rfl
  | g :: rest => by
    rw [join]
    by_cases hk : g.1 = key
    · rw [if_pos hk, getD_lookup_cons, getD_lookup_cons, hk]
      by_cases he : key = event <;> simp [he]
    · rw [if_neg hk, getD_lookup_cons, getD_lookup_cons, getD_lookup_join event key ts rest]
      by_cases he : g.1 = event
      · have hne : key ≠ event := fun e => hk (he.trans e.symm)
        simp [he, hne]
      · simp [he]

/-- The table of a state has under an event type what the groups have under it. -/
theorem getD_lookup_table (event : String) (groups : List (String × List Nat)) :
    ((table groups).lookup event).getD [] = under event groups := by
  have go : ∀ (groups acc : List (String × List Nat)),
      ((groups.foldl (fun t g => join g.1 g.2 t) acc).lookup event).getD [] =
        (acc.lookup event).getD [] ++ under event groups := by
    intro groups
    induction groups with
    | nil => intro acc; simp [under_nil]
    | cons g rest ih =>
      intro acc
      rw [List.foldl_cons, ih, getD_lookup_join, under_cons, List.append_assoc]
  exact go groups []

/-- The numbers of the entries of a list that stand under a key, where the list is numbered from
`first`. -/
def numbersOf {α : Type} (key : Option String) (first : Nat)
    (declared : List (Option String × α)) : List Nat :=
  ((declared.zipIdx first).filter fun t => t.1.1 = key).map Prod.snd

theorem numbersOf_append {α : Type} (key : Option String) (first : Nat)
    (declared more : List (Option String × α)) : numbersOf key first (declared ++ more) =
      numbersOf key first declared ++ numbersOf key (first + declared.length) more := by
  rw [numbersOf, List.zipIdx_append, List.filter_append, List.map_append]
  rfl

theorem numbersOf_map {α : Type} (key other : Option String) (first : Nat) (ts : List α) :
    numbersOf key first (ts.map (other, ·)) =
      if other = key then List.range' first ts.length else [] := by
  by_cases h : other = key
  · have hall : ((ts.map (other, ·)).zipIdx first).filter (fun t => t.1.1 = key) =
        (ts.map (other, ·)).zipIdx first := List.filter_eq_self.mpr fun t ht => by
      obtain ⟨u, -, hu⟩ := List.mem_map.mp (List.fst_mem_of_mem_zipIdx ht)
      simp [← hu, h]
    rw [if_pos h, numbersOf, hall, List.zipIdx_map_snd, List.length_map]
  · have hnone : ((ts.map (other, ·)).zipIdx first).filter (fun t => t.1.1 = key) = [] :=
      List.filter_eq_nil_iff.mpr fun t ht => by
        obtain ⟨u, -, hu⟩ := List.mem_map.mp (List.fst_mem_of_mem_zipIdx ht)
        simp [← hu, h]
    rw [if_neg h, numbersOf, hnone]
    rfl

theorem under_numbered (event : String) : ∀ (groups : List (String × List TransitionDef))
    (first : Nat), under event (numbered first groups) =
      numbersOf (some event) first (groups.flatMap fun g => g.2.map (some g.1, ·))
  | [], _ => rfl
  | g :: rest, first => by
    rw [numbered, under_cons, under_numbered event rest, List.flatMap_cons, numbersOf_append,
      numbersOf_map, List.length_map]
    simp only [Option.some.injEq]

theorem numbersOf_groups (first : Nat) : ∀ groups : List (String × List TransitionDef),
    numbersOf none first (groups.flatMap fun g => g.2.map (some g.1, ·)) = []
  | [] => rfl
  | g :: rest => by
    rw [List.flatMap_cons, numbersOf_append, numbersOf_map, if_neg (Option.some_ne_none _),
      List.nil_append, numbersOf_groups]

variable (l : Layout)

/-- A state offers for a key what it declares for it, in the order of declaration. -/
theorem menu_node (n first : Nat) (key : Option String) :
    (l.node n first).menu key = numbersOf key first (l.slot n).declared := by
  have hlength : ((l.slot n).groups.flatMap fun g => g.2.map (some g.1, ·)).length =
      ((l.slot n).groups.flatMap Prod.snd).length := by simp [List.length_flatMap]
  rw [Slot.declared, numbersOf_append, numbersOf_map]
  cases key with
  | some event =>
    rw [if_neg (Option.some_ne_none _).symm, List.append_nil, ← under_numbered,
      ← getD_lookup_table]
    rfl
  | none =>
    rw [numbersOf_groups, if_pos rfl, hlength]
    rfl

theorem nodup_numbersOf {α : Type} (key : Option String) (first : Nat)
    (declared : List (Option String × α)) : (numbersOf key first declared).Nodup := by
  have hsub : (numbersOf key first declared).Sublist (List.range' first declared.length) := by
    rw [← List.zipIdx_map_snd]
    exact List.filter_sublist.map Prod.snd
  exact hsub.nodup List.nodup_range'

/-- The transitions that a state offers for a key are those that it declares for it. -/
theorem map_menu {n : Nat} (hn : n < l.slots.size) (key : Option String) :
    ((l.chart.node n).menu key).map l.chart.transition =
      ((l.slot n).declaredFor key).map (l.transition n key) := by
  let first := firstTransition 0 l.slots.toList n
  let entries := ((l.slot n).declared.zipIdx first).filter fun t => t.1.1 = key
  have htransition : ∀ t ∈ entries,
      l.chart.transition t.2 = l.transition n t.1.1 t.1.2 := by
    rintro ⟨t, i⟩ ht
    obtain ⟨hi, hget⟩ := List.mk_mem_zipIdx_iff_le_and_getElem?_sub.mp (List.mem_of_mem_filter ht)
    obtain ⟨j, rfl⟩ := Nat.exists_eq_add_of_le hi
    rw [Nat.add_sub_cancel_left] at hget
    exact transition_chart l hn hget
  have hentries : entries.map Prod.fst = (l.slot n).declared.filter fun t => t.1 = key := by
    conv_rhs => rw [← List.zipIdx_map_fst first (l.slot n).declared, List.filter_map]
    rfl
  calc ((l.chart.node n).menu key).map l.chart.transition
      = (entries.map Prod.snd).map l.chart.transition := by rw [node_chart l hn, menu_node]; rfl
    _ = entries.map fun t => l.transition n t.1.1 t.1.2 := by
        rw [List.map_map]; exact List.map_congr_left htransition
    _ = (entries.map Prod.fst).map fun t => l.transition n t.1 t.2 := by rw [List.map_map]; rfl
    _ = ((l.slot n).declaredFor key).map (l.transition n key) := by
        rw [hentries, Slot.filter_declared, List.map_map]; rfl

end Layout

/-! ## Charts -/

namespace Chart

/-- The same chart with each event delivered once after the entry of a state. -/
def once (c : Chart) : Chart := { c with nodes := c.nodes.map Node.once }

theorem size_once (c : Chart) : c.once.size = c.size := Array.size_map

theorem node_once (c : Chart) (n : Nat) : c.once.node n = (c.node n).once := by
  by_cases hn : n < c.nodes.size
  · simp [Chart.node, once, Array.getD_eq_getD_getElem?, hn]
  · simp [Chart.node, once, Array.getD_eq_getD_getElem?, hn]
    rfl

/-- Two charts of the same states, which offer the same transitions in the same order under other
numbers. -/
structure Renumbered (c c' : Chart) : Prop where
  size : c'.size = c.size
  node : ∀ n, c'.node n = { c.node n with on := (c'.node n).on, always := (c'.node n).always }
  menu : ∀ n key, ((c'.node n).menu key).map c'.transition = ((c.node n).menu key).map c.transition

/-- No number stands twice in what a state of a built chart offers, and each of its transitions is
one of the state and of the key. -/
structure Numbered (c : Chart) : Prop where
  nodup : ∀ n key, ((c.node n).menu key).Nodup
  offered : ∀ {n key t}, t ∈ (c.node n).menu key →
    (c.transition t).source = n ∧ (c.transition t).event = key

theorem menu_absent (key : Option String) : Node.absent.menu key = [] := by
  cases key <;> rfl

theorem numbered_chart (l : Layout) : l.chart.Numbered where
  nodup n key := by
    rcases l.node_cases n with e | ⟨-, e⟩ <;> rw [e]
    · rw [menu_absent]; exact .nil
    · rw [Layout.menu_node]; exact Layout.nodup_numbersOf key _ _
  offered {n key t} ht := by
    by_cases hn : n < l.slots.size
    · have hmap := List.mem_map_of_mem (f := l.chart.transition) ht
      rw [l.map_menu hn] at hmap
      obtain ⟨u, -, hu⟩ := List.mem_map.mp hmap
      rw [← hu]
      exact ⟨rfl, rfl⟩
    · rw [node_of_size_le (by rw [l.size_chart]; omega), menu_absent] at ht
      exact absurd ht List.not_mem_nil

theorem Numbered.once {c : Chart} (hc : c.Numbered) : c.once.Numbered where
  nodup n key := by
    rw [node_once, Node.menu_once]
    exact hc.nodup n key
  offered {n key t} ht := by
    rw [node_once, Node.menu_once] at ht
    exact hc.offered ht

/-- Two transitions that stand at the same place in what a state offers. -/
def Twin (c c' : Chart) (t t' : Nat) : Prop :=
  ∃ (n : Nat) (key : Option String) (i : Nat),
    ((c.node n).menu key)[i]? = some t ∧ ((c'.node n).menu key)[i]? = some t'

variable {c c' : Chart}

theorem Twin.symm {t t' : Nat} : c.Twin c' t t' → c'.Twin c t' t := by
  rintro ⟨n, key, i, ht, ht'⟩
  exact ⟨n, key, i, ht', ht⟩

theorem Twin.eq (hc : c.Numbered) {t t' u' : Nat} (ht : c.Twin c' t t') (hu : c.Twin c' t u') :
    t' = u' := by
  obtain ⟨n, key, i, hi, hi'⟩ := ht
  obtain ⟨m, key', j, hj, hj'⟩ := hu
  obtain ⟨hn, hkey⟩ := hc.offered (List.mem_of_getElem? hi)
  obtain ⟨hm, hkey'⟩ := hc.offered (List.mem_of_getElem? hj)
  obtain rfl := hn.symm.trans hm
  obtain rfl := hkey.symm.trans hkey'
  have hlt := (List.getElem?_eq_some_iff.mp hi).1
  obtain rfl : i = j := (List.getElem?_inj hlt (hc.nodup n key)).mp (hi.trans hj.symm)
  exact Option.some.inj (hi'.symm.trans hj')

theorem Twin.biUnique (hc : c.Numbered) (hc' : c'.Numbered) : Relator.BiUnique (c.Twin c') :=
  ⟨fun _ _ _ ht hu => Twin.eq hc' ht.symm hu.symm, fun _ _ _ ht hu => Twin.eq hc ht hu⟩

namespace Renumbered

variable (h : c.Renumbered c')
include h

theorem transition {t t' : Nat} (ht : c.Twin c' t t') : c'.transition t' = c.transition t := by
  obtain ⟨n, key, i, hi, hi'⟩ := ht
  have hmap := congrArg (fun l => l[i]?) (h.menu n key)
  simp only [List.getElem?_map, hi, hi', Option.map_some] at hmap
  exact Option.some.inj hmap

theorem twins (n : Nat) (key : Option String) :
    List.Forall₂ (c.Twin c') ((c.node n).menu key) ((c'.node n).menu key) := by
  have hlength : ((c.node n).menu key).length = ((c'.node n).menu key).length := by
    simpa using (congrArg List.length (h.menu n key)).symm
  refine List.forall₂_iff_get.mpr ⟨hlength, fun i hi hi' => ⟨n, key, i, ?_, ?_⟩⟩
  · exact List.getElem?_eq_getElem hi
  · exact List.getElem?_eq_getElem hi'

/-! ### States -/

theorem id (n : Nat) : (c'.node n).id = (c.node n).id := by rw [h.node n]

theorem key (n : Nat) : (c'.node n).key = (c.node n).key := by rw [h.node n]

theorem kind (n : Nat) : (c'.node n).kind = (c.node n).kind := by rw [h.node n]

theorem parent (n : Nat) : (c'.node n).parent = (c.node n).parent := by rw [h.node n]

theorem children (n : Nat) : (c'.node n).children = (c.node n).children := by rw [h.node n]

theorem initial (n : Nat) : (c'.node n).initial = (c.node n).initial := by rw [h.node n]

theorem history (n : Nat) : (c'.node n).history = (c.node n).history := by rw [h.node n]

theorem historyTarget (n : Nat) : (c'.node n).historyTarget = (c.node n).historyTarget := by
  rw [h.node n]

theorem entry (n : Nat) : (c'.node n).entry = (c.node n).entry := by rw [h.node n]

theorem exit (n : Nat) : (c'.node n).exit = (c.node n).exit := by rw [h.node n]

theorem after (n : Nat) : (c'.node n).after = (c.node n).after := by rw [h.node n]

theorem invoke (n : Nat) : (c'.node n).invoke = (c.node n).invoke := by rw [h.node n]

theorem stop (n : Nat) : (c'.node n).stop = (c.node n).stop := by rw [h.node n]

theorem isLeaf (n : Nat) : (c'.node n).isLeaf = (c.node n).isLeaf := by
  rw [Node.isLeaf, h.kind, Node.isLeaf]

theorem isCompound (n : Nat) : (c'.node n).isCompound = (c.node n).isCompound := by
  rw [Node.isCompound, h.kind, Node.isCompound]

theorem isParallel (n : Nat) : (c'.node n).isParallel = (c.node n).isParallel := by
  rw [Node.isParallel, h.kind, Node.isParallel]

theorem isFinal (n : Nat) : (c'.node n).isFinal = (c.node n).isFinal := by
  rw [Node.isFinal, h.kind, Node.isFinal]

theorem isHistory (n : Nat) : (c'.node n).isHistory = (c.node n).isHistory := by
  rw [Node.isHistory, h.kind, Node.isHistory]

/-! ### The tree -/

theorem climb : c'.climb = c.climb := by
  funext steps n
  induction steps generalizing n with
  | zero => rfl
  | succ steps ih => simp only [Chart.climb, h.parent, ih]

theorem ancestors : c'.ancestors = c.ancestors := by
  funext n
  simp only [Chart.ancestors, h.climb]

theorem isDescendant : c'.isDescendant = c.isDescendant := by
  funext n a
  simp only [Chart.isDescendant, h.stop]

theorem ancestorsUntil : c'.ancestorsUntil = c.ancestorsUntil := by
  funext n stop
  simp only [Chart.ancestorsUntil, h.ancestors]

theorem commonCompound : c'.commonCompound = c.commonCompound := by
  funext ns
  cases ns with
  | nil => rfl
  | cons n ns => simp only [Chart.commonCompound, h.ancestors, h.isCompound, h.isDescendant]

theorem activeLeaves : c'.activeLeaves = c.activeLeaves := by
  funext configuration
  simp only [Chart.activeLeaves, h.isLeaf]

theorem activeChildren : c'.activeChildren = c.activeChildren := by
  funext n configuration
  simp only [Chart.activeChildren, h.children]

theorem regions : c'.regions = c.regions := by
  funext n
  simp only [Chart.regions, h.children, h.isHistory]

theorem isComplete : c'.isComplete = c.isComplete := by
  have hwithin : ∀ levels configuration n, c'.isCompleteWithin configuration levels n =
      c.isCompleteWithin configuration levels n := by
    intro levels
    induction levels with
    | zero => exact fun _ _ => rfl
    | succ levels ih =>
      intro configuration n
      simp only [Chart.isCompleteWithin, h.kind, h.activeChildren, h.isFinal, h.regions, ih]
  funext configuration n
  simp only [Chart.isComplete, h.size, hwithin]

end Renumbered

end Chart

namespace Layout.Regrouped

variable {keep : Bool} {l l' : Layout} (h : Regrouped keep l l')
include h

theorem initial : l'.initial = l.initial := by
  funext n
  simp only [Layout.initial, h.children, h.kind, h.child?, h.definition, Definition.regrouped_eq]

theorem absent {n : Nat} (hn : ¬ n < l.slots.size) :
    l.chart.node n = .absent ∧ l'.chart.node n = .absent := by
  have hsize := l.size_chart
  have hsize' := l'.size_chart
  rw [h.size] at hsize'
  exact ⟨Chart.node_of_size_le (by omega), Chart.node_of_size_le (by omega)⟩

/-- With later entries of a delay kept the same events are delivered after entry, else each of them
once. -/
theorem after (n : Nat) : (l'.chart.node n).after =
    if keep then (l.chart.node n).after else (l.chart.node n).after.eraseDups := by
  by_cases hn : n < l.slots.size
  · rw [Layout.node_chart l hn, Layout.node_chart l' (by rw [h.size]; exact hn)]
    exact h.delayed n
  · rw [(h.absent hn).1, (h.absent hn).2]
    exact (ite_self _).symm

theorem size_chart : l'.chart.size = l.chart.size := by
  rw [Layout.size_chart, Layout.size_chart, h.size]

/-- A state is as before but for the numbers of its transitions and what it delivers. -/
theorem node_chart (n : Nat) : l'.chart.node n = { l.chart.node n with
    on := (l'.chart.node n).on
    always := (l'.chart.node n).always
    after := (l'.chart.node n).after } := by
  by_cases hn : n < l.slots.size
  · rw [Layout.node_chart l hn, Layout.node_chart l' (by rw [h.size]; exact hn)]
    simp only [Layout.node, h.id, h.key, h.kind, h.parent, h.children, h.initial, h.targets,
      h.invocations, h.depth, h.stop, h.definition, Definition.regrouped_eq]
  · rw [(h.absent hn).1, (h.absent hn).2]

theorem menu (n : Nat) (key : Option String) :
    ((l'.chart.node n).menu key).map l'.chart.transition =
      ((l.chart.node n).menu key).map l.chart.transition := by
  by_cases hn : n < l.slots.size
  · have hslot : (l'.slot n).declaredFor key = (l.slot n).declaredFor key := by
      rw [h.slot, Slot.declaredFor_regrouped]
    have htransition : l'.transition = l.transition := by
      funext source event t
      simp only [Layout.transition, h.targets]
    rw [l.map_menu hn, l'.map_menu (by rw [h.size]; exact hn), hslot, htransition]
  · rw [(h.absent hn).1, (h.absent hn).2, Chart.menu_absent, List.map_nil, List.map_nil]

omit h in
/-- Regrouping only gives other numbers to transitions, where later entries of a delay are
kept. -/
theorem renumbered (h : Regrouped true l l') : l.chart.Renumbered l'.chart where
  size := h.size_chart
  node n := by
    have hnode := h.node_chart n
    rwa [h.after n, if_pos rfl] at hnode
  menu := h.menu

omit h in
/-- Where later entries of a delay are left out, regrouping also leaves out what is delivered
again. -/
theorem renumbered_once (h : Regrouped false l l') : l.chart.once.Renumbered l'.chart where
  size := h.size_chart.trans l.chart.size_once.symm
  node n := by
    have hnode := h.node_chart n
    rw [h.after n, if_neg Bool.false_ne_true] at hnode
    rw [Chart.node_once]
    exact hnode
  menu n key := by
    rw [Chart.node_once, Node.menu_once]
    exact h.menu n key

end Layout.Regrouped

end Statechart
