import Statechart.Proofs.Configuration.Reachable
import Statechart.Proofs.Entry.Defaults
import Statechart.Proofs.Macrostep.Taken

/-!
# The configuration at the start

A start enters the root and what that brings in by default. Every active state then has what it
needs below it, and is on the way up from an active leaf, so that the selection of transitions
comes to it (`Live`), provided that there is something to enter: a definition may be accepted
although a compound state has no children but history states (`attic`), or a parallel state has
no children at all. These are the only states that can be active with nothing active inside.

* `ByDefault.seen`: below every state that is entered by default there is a leaf.
* `Machine.initial_live_iff`: the start of a machine.
-/
namespace Statechart

namespace Chart

variable {c : Chart}

/-- Every active state has the active children that it needs, and is on the way up from an active
leaf. -/
structure Live (c : Chart) (configuration : NodeSet) : Prop where
  child : ∀ n ∈ configuration, (c.node n).isCompound = true →
    ∃ k, c.activeChildren n configuration = [k]
  region : ∀ n ∈ configuration, (c.node n).isParallel = true →
    ∀ r ∈ c.regions n, r ∈ configuration
  seen : ∀ n ∈ configuration, ∃ leaf ∈ c.activeLeaves configuration, n ∈ leaf :: c.ancestors leaf

/-- Every state of a set that is no leaf has a region. -/
def Inhabited (c : Chart) (s : NodeSet) : Prop :=
  ∀ n ∈ s, (c.node n).isLeaf = false → c.regions n ≠ []

instance (s : NodeSet) : Decidable (c.Inhabited s) :=
  inferInstanceAs (Decidable (∀ n ∈ s.toList, _ → _))

section Default

variable {names : Names} (h : c.Accepted names) {s : NodeSet}
  (hs : ∀ n, n ∈ s ↔ c.ByDefault root n)
include hs

theorem defaultChild_mem {n k : Nat} (hn : n ∈ s) (hk : k ∈ c.defaultChildren n) : k ∈ s :=
  (hs k).mpr (((hs n).mp hn).child hk)

theorem region_mem {n : Nat} (hn : n ∈ s) (hp : (c.node n).isParallel = true) :
    ∀ r ∈ c.regions n, r ∈ s := fun r hr =>
  defaultChild_mem hs hn (by rwa [defaultChildren_of_parallel hp])

include h

theorem parent_mem_of_byDefault {n p : Nat} (hn : n ∈ s) (hp : (c.node n).parent = some p) :
    p ∈ s ∧ n ∈ c.defaultChildren p := by
  have hne : n ≠ root := fun e => by rw [e, h.parent_root] at hp; cases hp
  obtain ⟨hp, hk⟩ := ((hs n).mp hn).parent h hne hp
  exact ⟨(hs p).mpr hp, hk⟩

/-- The one active child of a compound state is its default child. -/
theorem activeChildren_of_initial {n k : Nat} (hn : n ∈ s) (hc : (c.node n).isCompound = true)
    (hk : (c.node n).initial = some k) : c.activeChildren n s = [k] := by
  have hd : c.defaultChildren n = [k] := by rw [defaultChildren_of_compound hc, hk]; rfl
  refine activeChildren_eq_singleton h.toIsTree (defaultChild_mem hs hn (by simp [hd]))
    (h.parent_of_initial hk) fun l hl hln => ?_
  have hl := (parent_mem_of_byDefault h hs hl hln).2
  rwa [hd, List.mem_singleton] at hl

variable (hi : c.PlainInitials)
  (hnone : ∀ n, (c.node n).isCompound = true → (c.node n).initial = none → c.regions n = [])
include hi hnone

/-- A state that has a region is entered together with one of its children. -/
theorem exists_defaultChild {n : Nat} (hn : n ∈ s) (hl : (c.node n).isLeaf = false)
    (hr : c.regions n ≠ []) : ∃ k, k ∈ c.defaultChildren n := by
  have hh := ((hs n).mp hn).not_history h hi (root_not_history h)
  rcases Node.kind_cases hh with hleaf | hc | hp
  · rw [hl] at hleaf; cases hleaf
  · cases hk : (c.node n).initial with
    | none => exact absurd (hnone n hc hk) hr
    | some k => exact ⟨k, by rw [defaultChildren_of_compound hc, hk]; exact List.mem_singleton_self k⟩
  · rw [defaultChildren_of_parallel hp]
    exact List.exists_mem_of_ne_nil _ hr

/-- What is entered by default is live exactly if there is something to enter everywhere. -/
theorem live_iff : c.Live s ↔ c.Inhabited s := by
  constructor
  · intro hlive n hn hl hr
    obtain ⟨leaf, hleaf, hup⟩ := hlive.seen n hn
    obtain ⟨hmem, hleaf⟩ := List.mem_filter.mp hleaf
    have hd : c.isDescendant leaf n = true := by
      rcases List.mem_cons.mp hup with rfl | hup
      · rw [hl] at hleaf; cases hleaf
      · exact (mem_ancestors h.toIsTree).mp hup
    -- The way down to the leaf begins with a child, and that is a region.
    obtain ⟨k, hk, hw⟩ := h.exists_child hd
    have hks := mem_of_within_of_parent_mem h.toIsTree
      (fun n hn p hp => (parent_mem_of_byDefault h hs hn hp).1) hmem hw
    have hkh := ((hs k).mp hks).not_history h hi (root_not_history h)
    exact List.not_mem_nil (hr ▸ (mem_regions h.toIsTree).mpr ⟨hk, hkh⟩)
  · intro hne
    refine ⟨fun n hn hc => ?_, fun n hn hp => region_mem hs hn hp, fun n hn => ?_⟩
    · have hl : (c.node n).isLeaf = false := Bool.not_eq_true _ ▸ fun hl => by
        rw [(Node.not_inner_of_leaf hl).1] at hc; cases hc
      obtain ⟨k, hk⟩ := exists_defaultChild h hs hi hnone hn hl (hne n hn hl)
      rw [defaultChildren_of_compound hc, Option.mem_toList] at hk
      exact ⟨k, activeChildren_of_initial h hs hn hc hk⟩
    · obtain ⟨leaf, hleaf, hl, hw⟩ := exists_leaf_of_child h.toIsTree (fun n hn hl => by
        obtain ⟨k, hk⟩ := exists_defaultChild h hs hi hnone hn hl (hne n hn hl)
        exact ⟨k, defaultChild_mem hs hn hk, parent_of_defaultChild h hk⟩) hn
      refine ⟨leaf, List.mem_filter.mpr ⟨hleaf, hl⟩, ?_⟩
      rw [List.mem_cons, mem_ancestors h.toIsTree]
      exact hw.imp_left Eq.symm

end Default

end Chart

namespace Machine

open Chart

variable {C E A : Type} {m : Machine C E A}

/-- The start of a machine is live exactly if there is something to enter everywhere. If no
compound state names a history state as its initial child, then the start comes to the default
entry of the root, unless an action fails. Every active compound state has its one active child
then, if it has a region at all, every active parallel state has all its regions active, and every
active state is seen by the selection of transitions exactly if all that are no leaves have a
region. -/
theorem initial_live_iff {registry : Registry C E A} {context : C} {maxMicrosteps : Nat}
    {d : Definition} (hb : build registry context maxMicrosteps d = .ok m)
    (hi : m.chart.PlainInitials) :
    ∃ s, (∀ n, n ∈ s ↔ m.chart.ByDefault root n) ∧
      (∀ mode event (x : Execution C E), x.configuration = ∅ →
        (Execution.enterInitial m.chart m.registry mode event x).ComesTo
          fun y => y.configuration = s) ∧
      (∀ n ∈ s, (m.chart.node n).isCompound = true →
        (∃ k, m.chart.activeChildren n s = [k]) ∨ m.chart.regions n = []) ∧
      (∀ n ∈ s, (m.chart.node n).isParallel = true → ∀ r ∈ m.chart.regions n, r ∈ s) ∧
      (m.chart.Live s ↔ m.chart.Inhabited s) := by
  have h := accepted_of_build hb
  have hnone := fun n hc hn => regions_eq_nil_of_build (n := n) (chart_of_build hb) hc hn
  obtain ⟨s, he, hs⟩ := exists_initialEntrySet h hi
  refine ⟨s, hs, fun mode event x hx => Execution.enterInitial_comesTo he hx,
    fun n hn hc => ?_, fun n hn hp => region_mem hs hn hp, live_iff h hs hi hnone⟩
  cases hk : (m.chart.node n).initial with
  | none => exact .inr (hnone n hc hk)
  | some k => exact .inl ⟨k, activeChildren_of_initial h hs hn hc hk⟩

/-- An attic with nothing in it but the memory of what was there last. -/
def attic : Definition := {
  key := "attic"
  states := [{ key := "last", history := some .shallow }] }

def atticMachine : Machine Unit Unit Unit := buildD {} () 10 attic

/-- A compound state that has only a history state inside is accepted, although it has no
default child: at the start it has no active child, and the selection of transitions never comes
to it. -/
theorem attic_is_dead : build {} () 10 attic = .ok atticMachine ∧
    atticMachine.chart.PlainInitials ∧
    ∃ y : Execution Unit Unit, Execution.enterInitial atticMachine.chart atticMachine.registry .live
        .init { configuration := ∅, context := (), history := [] } = .ok y ∧
      root ∈ y.configuration ∧ (atticMachine.chart.node root).isCompound = true ∧
      atticMachine.chart.activeChildren root y.configuration = [] ∧
      atticMachine.chart.activeLeaves y.configuration = [] ∧
      ¬ atticMachine.chart.Live y.configuration := by
  have hb : build {} () 10 attic = .ok atticMachine := build_eq_buildD (by decide +kernel)
  refine ⟨hb, by decide +kernel, _, rfl, by decide +kernel, by decide +kernel, by decide +kernel,
    by decide +kernel, fun hlive => ?_⟩
  obtain ⟨k, hk⟩ := hlive.child root (by decide +kernel) (by decide +kernel)
  revert hk
  rw [show atticMachine.chart.activeChildren root _ = [] by decide +kernel]
  exact nofun

/-- The player is live from the start: it has something to enter everywhere. -/
theorem initial_live_iff_player : build {} () 10 player = .ok playerMachine ∧
    playerMachine.chart.PlainInitials ∧
    ∃ s, (∀ mode event (x : Execution Unit Unit), x.configuration = ∅ →
        (Execution.enterInitial playerMachine.chart playerMachine.registry mode event x).ComesTo
          fun y => y.configuration = s) ∧
      playerMachine.chart.Live s := by
  have hb := player_built
  have hi : playerMachine.chart.PlainInitials := by decide +kernel
  obtain ⟨s, hs, hstart, -, -, hlive⟩ := initial_live_iff hb hi
  have hall : ∀ n < playerMachine.chart.size, (playerMachine.chart.node n).isHistory = false →
      (playerMachine.chart.node n).isLeaf = false → playerMachine.chart.regions n ≠ [] := by
    decide +kernel
  have h := accepted_of_build hb
  refine ⟨hb, hi, s, hstart, hlive.mpr fun n hn => hall n ?_ ?_⟩
  · rcases ((hs n).mp hn).within h with rfl | hd
    · exact h.root_lt
    · exact h.lt_size hd
  · exact ((hs n).mp hn).not_history h hi (root_not_history h)

end Machine

end Statechart
