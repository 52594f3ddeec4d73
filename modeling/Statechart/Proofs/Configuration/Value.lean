import Statechart.Proofs.Chart.Keys
import Statechart.Proofs.Configuration.Legal
import Statechart.Snapshot

/-!
# The value of a legal configuration shows all of it

A value names, from the root down, the active child of every compound state and all regions of
every parallel one. In a legal configuration there is nothing else below an active state, and
where children of one state have keys of their own the keys say which they are. So two legal
configurations of one chart with one value are one configuration.

* `Legal.active_of_value`: one level of it, from a state to its children.
* `Legal.eq_of_value`: the whole configuration.
-/
namespace Statechart

namespace Chart

variable {c : Chart} {names : Names} {a b : NodeSet}

namespace Legal

theorem activeChildren_of_parallel (hl : c.Legal a) {n : Nat} (hn : n ∈ a)
    (hp : (c.node n).isParallel = true) : c.activeChildren n a = c.regions n := by
  refine List.filter_congr fun k hk => ?_
  cases hh : (c.node k).isHistory with
  | true => simpa using fun hka => by rw [hl.not_history k hka] at hh; cases hh
  | false => simpa using hl.region n hn hp k (List.mem_filter.mpr ⟨hk, by simp [hh]⟩)

/-- Where two configurations give a state one value, a child of it that is active in one is
active in the other, and has one value in both. -/
theorem active_of_value (h : c.Accepted names) (hkeys : c.Keyed) (ha : c.Legal a) (hb : c.Legal b)
    {levels n : Nat} (hna : n ∈ a) (hnb : n ∈ b)
    (hv : StateValue.ofConfigurationWithin c a (levels + 1) n =
      StateValue.ofConfigurationWithin c b (levels + 1) n)
    {j : Nat} (hj : j ∈ a) (hjn : (c.node j).parent = some n) :
    j ∈ b ∧ ((c.node j).isLeaf = false →
      StateValue.ofConfigurationWithin c a levels j =
        StateValue.ofConfigurationWithin c b levels j) := by
  have hja := (mem_activeChildren h.toIsTree).mpr ⟨hjn, hj⟩
  simp only [StateValue.ofConfigurationWithin] at hv
  rcases Node.kind_cases (ha.not_history n hna) with hleaf | hcomp | hpar
  · exact absurd (h.isDescendant_of_parent hjn) (h.not_isDescendant_leaf hleaf)
  · obtain ⟨k, hk⟩ := ha.child n hna hcomp
    obtain ⟨l, hl⟩ := hb.child n hnb hcomp
    obtain rfl : j = k := by simpa [hk] using hja
    have hlb := (mem_activeChildren h.toIsTree).mp (hl ▸ List.mem_singleton.mpr rfl)
    rw [Node.not_parallel_of_compound hcomp, hk, hl] at hv
    -- the two shapes of the value say whether the child is a leaf, and both name its key
    have hkey : (c.node j).key = (c.node l).key := by
      cases hj : (c.node j).isLeaf <;> cases hl : (c.node l).isLeaf <;> simp_all
    obtain rfl := hkeys j l n hjn hlb.1 hkey
    exact ⟨hlb.2, fun hleaf => by simpa [hleaf] using hv⟩
  · rw [hpar, ha.activeChildren_of_parallel hna hpar, hb.activeChildren_of_parallel hnb hpar] at hv
    have hj : j ∈ c.regions n := ha.activeChildren_of_parallel hna hpar ▸ hja
    have hnodup : ((c.regions n).map fun k => (c.node k).key).Nodup :=
      (regions_nodup h.toIsTree n).map_on fun k hk l hl => hkeys k l n
        ((mem_regions h.toIsTree).mp hk).1 ((mem_regions h.toIsTree).mp hl).1
    refine ⟨hb.region n hnb hpar j hj, fun hleaf => ?_⟩
    have shown : ∀ f : Nat → StateValue, Dict.get? (Dict.ofList ((c.regions n).map fun k =>
        ((c.node k).key, f k))) (c.node j).key = some (f j) := fun f =>
      Dict.get?_ofList (by simpa [Function.comp_def] using hnodup) (List.mem_map_of_mem hj)
    have hval := (shown _).symm.trans ((congrArg (Dict.get? · (c.node j).key)
      (StateValue.branch.inj hv)).trans (shown _))
    simpa [hleaf] using hval

/-- Where two configurations give a state one value, they agree on all that is inside it. -/
theorem mem_of_value (h : c.Accepted names) (hkeys : c.Keyed) (ha : c.Legal a) (hb : c.Legal b) :
    ∀ {levels n : Nat}, c.size ≤ n + levels → n ∈ a → n ∈ b →
      StateValue.ofConfigurationWithin c a levels n =
        StateValue.ofConfigurationWithin c b levels n →
      ∀ {k}, k ∈ a → c.isDescendant k n = true → k ∈ b := by
  intro levels
  induction levels with
  | zero =>
    intro n hlevels hna
    have := ha.lt_size n hna
    omega
  | succ levels ih =>
    intro n hlevels hna hnb hv k hk hkn
    obtain ⟨j, hjn, hkj⟩ := h.exists_child hkn
    have hj := ha.mem_of_within h.toIsTree hk hkj
    obtain ⟨hjb, hvj⟩ := ha.active_of_value h hkeys hb hna hnb hv hj hjn
    rcases hkj with rfl | hkj
    · exact hjb
    · have hleaf : (c.node j).isLeaf = false :=
        Bool.not_eq_true _ ▸ fun hl => h.not_isDescendant_leaf hl hkj
      have := h.parent_lt hjn
      exact ih (by omega) hj hjb (hvj hleaf) hk hkj

/-- Two legal configurations of one value are one configuration. -/
theorem eq_of_value (h : c.Accepted names) (hkeys : c.Keyed) (ha : c.Legal a) (hb : c.Legal b)
    (hv : StateValue.ofConfiguration c root a = StateValue.ofConfiguration c root b) : a = b := by
  have half : ∀ {a b : NodeSet}, c.Legal a → c.Legal b →
      StateValue.ofConfiguration c root a = StateValue.ofConfiguration c root b →
      ∀ k ∈ a, k ∈ b := fun {a b} ha hb hv k hk => by
    by_cases hroot : k = root
    · exact hroot ▸ hb.root_mem
    · exact ha.mem_of_value h hkeys hb (by omega) ha.root_mem hb.root_mem hv hk
        (h.isDescendant_root.mpr ⟨ha.lt_size k hk, hroot⟩)
  exact NodeSet.ext fun k => ⟨half ha hb hv k, half hb ha hv.symm k⟩

end Legal

end Chart

end Statechart
