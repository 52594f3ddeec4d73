import Statechart.Proofs.Chart.Accepted
import Statechart.Proofs.Definition.Regroup

/-!
# Laying out a definition that is regrouped

Regrouping touches neither the tree nor the targets, so the states keep their numbers, their ids
and their depths, and every target means the same state (`Layout.Regrouped`). What a state
declares for an event type is what it declared before, in the same order: only the order between
event types changes, and with it the numbers of the transitions.

* `declaredFor_regrouped`: what a state declares for an event type.
* `delayed_regrouped`: the events that its delays deliver.
* `problems`: a definition that is accepted is accepted regrouped.
-/
namespace Statechart

/-! ## Slots -/

namespace Definition

variable (keep : Bool)

mutual

theorem size_regrouped : ∀ d : Definition, (d.regrouped keep).size = d.size
  | ⟨_, _, _, _, _, _, states, _, _, _, _, _, _, _⟩ => by
    rw [regrouped, size, size, sizeAll_regroupedAll states]

theorem sizeAll_regroupedAll : ∀ ds : List Definition, sizeAll (regroupedAll keep ds) = sizeAll ds
  | [] => rfl
  | d :: rest => by
    rw [regroupedAll, sizeAll, sizeAll, size_regrouped d, sizeAll_regroupedAll rest]

end

theorem regrouped_eq : ∀ d : Definition, d.regrouped keep =
    { d with
      states := regroupedAll keep d.states
      on := mergedHandlers d.on
      after := regroupedDelays keep d.after }
  | ⟨_, _, _, _, _, _, _, _, _, _, _, _, _, _⟩ => rfl

theorem key_regrouped (d : Definition) : (d.regrouped keep).key = d.key := by rw [regrouped_eq]

theorem isEmpty_regroupedAll : ∀ ds : List Definition, (regroupedAll keep ds).isEmpty = ds.isEmpty
  | [] | _ :: _ => rfl

end Definition

def Slot.regrouped (keep : Bool) (s : Slot) : Slot :=
  { s with definition := s.definition.regrouped keep }

namespace Slot

variable (keep : Bool) (s : Slot)

theorem names_regrouped : (s.regrouped keep).names = s.names := by
  simp only [names, regrouped, Definition.regrouped_eq]

theorem id_regrouped : (s.regrouped keep).id = s.id := by
  simp only [id, regrouped, Definition.regrouped_eq]

theorem key_regrouped : (s.regrouped keep).key = s.key := Definition.key_regrouped keep s.definition

theorem kind_regrouped : (s.regrouped keep).kind = s.kind := by
  simp only [kind, regrouped, Definition.resolvedKind, Definition.regrouped_eq,
    Definition.isEmpty_regroupedAll]

/-- With later entries of a delay kept the same events are delivered, else each of them once. -/
theorem delayed_regrouped : (s.regrouped keep).delayed =
    if keep then s.delayed else s.delayed.eraseDups := by
  let event (delayMs : Nat) : Delayed := ⟨delayMs, Event.afterType delayMs s.id⟩
  have hevent : Function.Injective event := fun _ _ h => congrArg Delayed.delayMs h
  have hid : (s.regrouped keep).id = s.id := s.id_regrouped keep
  have hdelayed : ∀ ds : List Delay, ds.map (fun d => event d.delayMs) =
      (ds.map Delay.delayMs).map event := fun ds => by rw [List.map_map]; rfl
  calc (s.regrouped keep).delayed
      = (regroupedDelays keep s.definition.after).map fun d => event d.delayMs := by
        simp only [delayed, hid, event]
        simp only [regrouped, Definition.regrouped_eq]
    _ = if keep then s.delayed else s.delayed.eraseDups := by
        rw [hdelayed, regroupedDelays_map_delayMs]
        cases keep with
        | true => exact (hdelayed _).symm
        | false =>
          have hall : s.delayed = (s.definition.after.map Delay.delayMs).map event := hdelayed _
          rw [hall, eraseDups_map hevent]
          rfl

theorem invocations_regrouped : (s.regrouped keep).invocations = s.invocations := by
  simp only [invocations, id_regrouped]
  simp only [regrouped, Definition.regrouped_eq]

end Slot

theorem startsFrom_regroupedAll (keep : Bool) : ∀ (ds : List Definition) (start : Nat),
    startsFrom start (Definition.regroupedAll keep ds) = startsFrom start ds
  | [], _ => rfl
  | d :: rest, start => by
    rw [Definition.regroupedAll, startsFrom, startsFrom, Definition.size_regrouped,
      startsFrom_regroupedAll keep rest]

mutual

theorem slotsFrom_regrouped (keep : Bool) (parent : Option Nat) (path : String)
    (depth start : Nat) : ∀ d : Definition, slotsFrom parent path depth start (d.regrouped keep) =
      (slotsFrom parent path depth start d).map (Slot.regrouped keep)
  | ⟨_, _, _, _, _, _, states, _, _, _, _, _, _, _⟩ => by
    rw [Definition.regrouped, slotsFrom, slotsFrom, List.map_cons, startsFrom_regroupedAll,
      Definition.sizeAll_regroupedAll, slotsFromAll_regroupedAll keep start path _ _ states]
    rfl

theorem slotsFromAll_regroupedAll (keep : Bool) (parent : Nat) (path : String)
    (depth start : Nat) : ∀ ds : List Definition,
      slotsFromAll parent path depth start (Definition.regroupedAll keep ds) =
        (slotsFromAll parent path depth start ds).map (Slot.regrouped keep)
  | [] => rfl
  | d :: rest => by
    rw [Definition.regroupedAll, slotsFromAll, slotsFromAll, List.map_append,
      Definition.key_regrouped, Definition.size_regrouped,
      slotsFrom_regrouped keep _ _ _ _ d, slotsFromAll_regroupedAll keep _ _ _ _ rest]

end

/-! ## What a state declares -/

theorem Event.afterType_injective (id : String) :
    Function.Injective fun delayMs => Event.afterType delayMs id := by
  intro i j h
  have hrepr : i.repr = j.repr := by simpa [Event.afterType] using h
  have hdigits : Nat.toDigits 10 i = Nat.toDigits 10 j := by
    rw [← Nat.toList_repr, ← Nat.toList_repr, hrepr]
  calc i = Nat.ofDigitChars 10 (Nat.toDigits 10 i) 0 := Nat.ofDigitChars_ten_toDigits.symm
    _ = Nat.ofDigitChars 10 (Nat.toDigits 10 j) 0 := by rw [hdigits]
    _ = j := Nat.ofDigitChars_ten_toDigits

namespace Slot

/-- The transitions that the state declares for an event type, or without event, in their order. -/
def declaredFor (s : Slot) : Option String → List TransitionDef
  | some event => under event s.groups
  | none => s.definition.always

theorem filter_groups (event : String) (groups : List (String × List TransitionDef)) :
    (groups.flatMap fun g => g.2.map (some g.1, ·)).filter (fun t => t.1 = some event) =
      (under event groups).map (some event, ·) := by
  induction groups with
  | nil => rfl
  | cons g rest ih =>
    rw [List.flatMap_cons, List.filter_append, ih, under_cons, List.map_append]
    by_cases h : g.1 = event <;> simp [h]

theorem filter_declared (s : Slot) (key : Option String) :
    s.declared.filter (fun t => t.1 = key) = (s.declaredFor key).map (key, ·) := by
  rw [declared, List.filter_append]
  cases key with
  | none =>
    have hgroups : (s.groups.flatMap fun g => g.2.map (some g.1, ·)).filter
        (fun t => t.1 = none) = [] := by
      refine List.filter_eq_nil_iff.mpr fun t ht => ?_
      obtain ⟨g, -, ht⟩ := List.mem_flatMap.mp ht
      obtain ⟨u, -, rfl⟩ := List.mem_map.mp ht
      simp
    rw [hgroups]
    simp [declaredFor]
  | some event =>
    rw [filter_groups]
    simp [declaredFor]

theorem mem_declared {s : Slot} {t : Option String × TransitionDef} :
    t ∈ s.declared ↔ t.2 ∈ s.declaredFor t.1 := by
  have h : t ∈ s.declared ↔ t ∈ s.declared.filter fun u => u.1 = t.1 := by simp
  rw [h, filter_declared]
  obtain ⟨key, t⟩ := t
  simp

/-- A state that is regrouped declares the same transitions, in the same order for each event
type. -/
theorem declaredFor_regrouped (keep : Bool) (s : Slot) (key : Option String) :
    (s.regrouped keep).declaredFor key = s.declaredFor key := by
  cases key with
  | none => simp only [declaredFor, regrouped, Definition.regrouped_eq]
  | some event =>
    have hon : ∀ on, under event ((mergedHandlers on).map fun h => (h.event, h.transitions)) =
        under event (on.map fun h => (h.event, h.transitions)) := fun on => by
      rw [mergedHandlers, List.map_map]
      exact (congrArg (under event) (List.map_id _)).trans (under_regroup false event _ [])
    have hafter : ∀ after, under event ((regroupedDelays keep after).map fun d =>
          (Event.afterType d.delayMs s.id, d.transitions)) =
        under event (after.map fun d => (Event.afterType d.delayMs s.id, d.transitions)) := by
      intro after
      have hmap : ∀ ds : List Delay,
          (ds.map fun d => (Event.afterType d.delayMs s.id, d.transitions)) =
            (ds.map fun d => (d.delayMs, d.transitions)).map fun g =>
              (Event.afterType g.1 s.id, g.2) := fun ds => by rw [List.map_map]; rfl
      have hgroups : ((regroupedDelays keep after).map fun d => (d.delayMs, d.transitions)) =
          regroup keep [] (after.map fun d => (d.delayMs, d.transitions)) := by
        rw [regroupedDelays, List.map_map]; exact List.map_id _
      rw [hmap, hmap, hgroups]
      by_cases hevent : ∃ delayMs, Event.afterType delayMs s.id = event
      · obtain ⟨delayMs, rfl⟩ := hevent
        rw [under_map (Event.afterType_injective s.id), under_map (Event.afterType_injective s.id)]
        exact under_regroup keep delayMs _ []
      · have hne : ∀ delayMs, Event.afterType delayMs s.id ≠ event := fun _ h => hevent ⟨_, h⟩
        rw [under_map_of_forall_ne hne, under_map_of_forall_ne hne]
    have hid : (s.regrouped keep).id = s.id := s.id_regrouped keep
    simp only [declaredFor, groups, under_append, hid]
    simp only [regrouped, Definition.regrouped_eq, hon, hafter]

end Slot

/-! ## Layouts -/

namespace Layout

/-- The layout of a definition and that of the definition regrouped. -/
structure Regrouped (keep : Bool) (l l' : Layout) : Prop where
  ids : l'.ids = l.ids
  slots : l'.slots = l.slots.map (Slot.regrouped keep)

theorem namesFrom_regrouped (keep : Bool) : ∀ (slots : List Slot) (start : Nat),
    namesFrom start (slots.map (Slot.regrouped keep)) = namesFrom start slots
  | [], _ => rfl
  | s :: rest, start => by
    rw [List.map_cons, namesFrom, namesFrom, Slot.names_regrouped, namesFrom_regrouped keep rest]

theorem regrouped_ofDefinition (keep : Bool) (d : Definition) :
    Regrouped keep (ofDefinition d) (ofDefinition (d.regrouped keep)) where
  ids := by simp [ofDefinition, slotsFrom_regrouped, Definition.key_regrouped, namesFrom_regrouped]
  slots := by simp [ofDefinition, slotsFrom_regrouped, Definition.key_regrouped]

namespace Regrouped

variable {keep : Bool} {l l' : Layout} (h : Regrouped keep l l')
include h

theorem size : l'.slots.size = l.slots.size := by rw [h.slots, Array.size_map]

theorem slot (n : Nat) : l'.slot n = (l.slot n).regrouped keep := by
  rw [Layout.slot, h.slots, Layout.slot]
  by_cases hn : n < l.slots.size
  · simp [Array.getD_eq_getD_getElem?, hn]
  · simp [Array.getD_eq_getD_getElem?, hn]
    rfl

theorem parent (n : Nat) : (l'.slot n).parent = (l.slot n).parent := by rw [h.slot]; rfl

theorem children (n : Nat) : (l'.slot n).children = (l.slot n).children := by rw [h.slot]; rfl

theorem depth (n : Nat) : (l'.slot n).depth = (l.slot n).depth := by rw [h.slot]; rfl

theorem stop (n : Nat) : (l'.slot n).stop = (l.slot n).stop := by rw [h.slot]; rfl

theorem definition (n : Nat) :
    (l'.slot n).definition = (l.slot n).definition.regrouped keep := by rw [h.slot]; rfl

theorem id (n : Nat) : (l'.slot n).id = (l.slot n).id := by rw [h.slot, Slot.id_regrouped]

theorem key (n : Nat) : (l'.slot n).key = (l.slot n).key := by rw [h.slot, Slot.key_regrouped]

theorem kind (n : Nat) : (l'.slot n).kind = (l.slot n).kind := by rw [h.slot, Slot.kind_regrouped]

/-! Targets mean the same states. -/

theorem child? : l'.child? = l.child? := by
  funext n key
  simp only [Layout.child?, h.children, h.key]

theorem descend : l'.descend = l.descend := by
  funext n keys
  induction keys generalizing n with
  | nil => rfl
  | cons key keys ih => simp only [Layout.descend, h.child?, ih]

theorem target? : l'.target? = l.target? := by
  funext source target
  simp only [Layout.target?, Layout.absolute?, h.ids, h.descend, h.parent]

theorem targets : l'.targets = l.targets := by
  funext source targets
  simp only [Layout.targets, h.target?]

/-! No problem is added. -/

theorem structureProblems : l'.structureProblems = l.structureProblems := by
  funext n
  simp only [Layout.structureProblems, Layout.historyProblems, Layout.initialProblems,
    Layout.targetProblems, h.definition, Definition.regrouped_eq, Definition.isEmpty_regroupedAll,
    h.kind, h.id, h.parent, h.children, h.child?, h.target?]

theorem invocations (n : Nat) : (l'.slot n).invocations = (l.slot n).invocations := by
  rw [h.slot, Slot.invocations_regrouped]

theorem delayed (n : Nat) : (l'.slot n).delayed =
    if keep then (l.slot n).delayed else (l.slot n).delayed.eraseDups := by
  rw [h.slot, Slot.delayed_regrouped]

theorem transitionProblems : l'.transitionProblems = l.transitionProblems := by
  funext names source t
  simp only [Layout.transitionProblems, Layout.targetProblems, h.id, h.target?]

theorem declared (n : Nat) (t : Option String × TransitionDef) :
    t ∈ (l'.slot n).declared ↔ t ∈ (l.slot n).declared := by
  rw [Slot.mem_declared, Slot.mem_declared, h.slot, Slot.declaredFor_regrouped]

theorem behaviourProblems {names : Names} {seen : List String} {n : Nat}
    (hp : l.behaviourProblems names seen n = []) : l'.behaviourProblems names seen n = [] := by
  simp only [Layout.behaviourProblems, List.append_eq_nil_iff, List.flatMap_eq_nil_iff,
    h.definition, Definition.regrouped_eq, h.invocations, h.id, h.transitionProblems, h.declared]
    at hp ⊢
  exact hp

theorem behaviourProblemsFrom {names : Names} :
    ∀ {slots : List Slot} {seen : List String} {n : Nat},
      l.behaviourProblemsFrom names seen n slots = [] →
      l'.behaviourProblemsFrom names seen n (slots.map (Slot.regrouped keep)) = []
  | [], _, _, _ => rfl
  | s :: rest, seen, n, hp => by
    rw [Layout.behaviourProblemsFrom, List.append_eq_nil_iff] at hp
    rw [List.map_cons, Layout.behaviourProblemsFrom, List.append_eq_nil_iff,
      Slot.invocations_regrouped]
    exact ⟨h.behaviourProblems hp.1, behaviourProblemsFrom hp.2⟩

/-- A definition that is accepted is accepted regrouped. -/
theorem problems {names : Names} (hp : l.problems names = []) : l'.problems names = [] := by
  have hslots : l'.slots.toList = l.slots.toList.map (Slot.regrouped keep) := by simp [h.slots]
  have hnames : l'.slots.toList.flatMap Slot.names = l.slots.toList.flatMap Slot.names := by
    rw [hslots, List.flatMap_map]
    simp only [Slot.names_regrouped]
  simp only [Layout.problems, List.append_eq_nil_iff] at hp ⊢
  rw [hnames, h.size, h.structureProblems, hslots]
  exact ⟨hp.1, h.behaviourProblemsFrom hp.2⟩

end Regrouped

end Layout

end Statechart
