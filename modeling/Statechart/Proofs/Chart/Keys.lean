import Statechart.Proofs.Chart.Accepted

/-!
# Children have keys of their own

A state goes by its dotted path of keys, and in an accepted definition no two states go by one
name. So two children of one state have different keys: a key says which child is meant.

* `paths_slotsFrom`: the path of a state goes on from that of its parent.
* `Chart.keyed_of_build`: children of one state with one key are one.
-/
namespace Statechart

/-! ## Paths -/

theorem Slot.path_mem_names (s : Slot) : s.path ∈ s.names := List.mem_cons_self

/-- The state below a parent has its key behind the path of the parent. -/
def Slot.Below (g : Nat → Slot) (n : Nat) : Prop :=
  ∃ p, (g n).parent = some p ∧ (g n).path = (g p).path ++ "." ++ (g n).key

mutual

theorem paths_slotsFrom (g : Nat → Slot) (parent : Option Nat) (path : String)
    (depth start : Nat) :
    ∀ d : Definition, Occupies g start (slotsFrom parent path depth start d) →
      ((g start).parent = parent ∧ (g start).path = path ∧ (g start).key = d.key) ∧
        ∀ n, start < n → n < start + d.size → Slot.Below g n
  | ⟨_, _, _, _, _, _, states, _, _, _, _, _, _, _⟩, h => by
    rw [slotsFrom] at h
    obtain ⟨hs, hrest⟩ := occupies_cons h
    refine ⟨by rw [hs]; exact ⟨rfl, rfl, rfl⟩, fun n h1 h2 => ?_⟩
    rw [Definition.size] at h2
    exact paths_slotsFromAll g start path (depth + 1) (start + 1) (by rw [hs]) states hrest n
      (by omega) (by omega)

theorem paths_slotsFromAll (g : Nat → Slot) (parent : Nat) (path : String)
    (depth start : Nat) (hp : (g parent).path = path) :
    ∀ ds : List Definition, Occupies g start (slotsFromAll parent path depth start ds) →
      ∀ n, start ≤ n → n < start + Definition.sizeAll ds → Slot.Below g n
  | [], _, n, h1, h2 => by rw [Definition.sizeAll] at h2; omega
  | d :: rest, h, n, h1, h2 => by
    rw [slotsFromAll] at h
    rw [Definition.sizeAll] at h2
    obtain ⟨hd, hrest⟩ := occupies_append h
    rw [length_slotsFrom] at hrest
    obtain ⟨⟨h3, h4, h5⟩, h6⟩ := paths_slotsFrom g (some parent) (path ++ "." ++ d.key) depth start
      d hd
    rcases Nat.lt_trichotomy start n with hlt | rfl | hlt
    · by_cases hn : n < start + d.size
      · exact h6 n hlt hn
      · exact paths_slotsFromAll g parent path depth (start + d.size) hp rest hrest n (by omega)
          (by omega)
    · exact ⟨parent, h3, by rw [h4, h5, hp]⟩
    · omega

end

namespace Layout

theorem path_of_parent (d : Definition) {n p : Nat} (hn : n < (ofDefinition d).slots.size)
    (hp : ((ofDefinition d).slot n).parent = some p) :
    ((ofDefinition d).slot n).path =
      ((ofDefinition d).slot p).path ++ "." ++ ((ofDefinition d).slot n).key := by
  rw [size_ofDefinition] at hn
  obtain ⟨⟨hroot, -⟩, hbelow⟩ := paths_slotsFrom _ none d.key 0 0 d (occupies_ofDefinition d)
  rcases Nat.eq_zero_or_pos n with rfl | hpos
  · rw [hroot] at hp; cases hp
  · obtain ⟨q, hq, hpath⟩ := hbelow n hpos (by omega)
    rw [hp] at hq
    cases hq
    exact hpath

end Layout

namespace Chart

/-- Children of one state have keys of their own. -/
def Keyed (c : Chart) : Prop :=
  ∀ n k p, (c.node n).parent = some p → (c.node k).parent = some p →
    (c.node n).key = (c.node k).key → n = k

/-- In a chart that was built, children of one state have keys of their own. -/
theorem keyed_of_build {names : Names} {d : Definition} {c : Chart}
    (h : Chart.build names d = .ok c) : c.Keyed := by
  obtain ⟨hp, rfl⟩ := build_ok.mp h
  simp only [Layout.problems, List.append_eq_nil_iff, List.map_eq_nil_iff] at hp
  have hnodup := (nodup_of_repeated hp.1.1).1
  have hsize := (Layout.ofDefinition d).size_chart
  intro n k p hn hk he
  have hnl := hsize ▸ lt_size_of_parent hn
  have hkl := hsize ▸ lt_size_of_parent hk
  rw [Layout.node_chart _ hnl] at hn he
  rw [Layout.node_chart _ hkl] at hk he
  have hkey : ((Layout.ofDefinition d).slot n).key = ((Layout.ofDefinition d).slot k).key := he
  have hpath : ((Layout.ofDefinition d).slot n).path = ((Layout.ofDefinition d).slot k).path := by
    rw [Layout.path_of_parent d hnl hn, Layout.path_of_parent d hkl hk, hkey]
  exact Layout.slot_unique _ hnodup hnl hkl (hpath ▸ Slot.path_mem_names _) (Slot.path_mem_names _)

end Chart

end Statechart
