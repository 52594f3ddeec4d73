import Statechart.Proofs.Configuration.Reachable
import Statechart.Proofs.Configuration.Value
import Statechart.Proofs.Path

/-!
# A value matches the paths of the active states

The dotted path of a state is the row of keys from below the root down to it. The value of a
configuration is asked for a path key by key; in a legal configuration every step of that is a step
from an active state to an active child of that key (`hasKeys_cons`), so the value has exactly the
rows of keys that lead down to active states (`hasKeys_iff`). Siblings have keys of their own, so
a row of keys leads to one state only (`keysTo_injective`), and a path that matches is the path of
one active state.

* `Machine.matches_iff_active`: the value matches the path of a state exactly if the state is
  active, and matches no other path.
-/
namespace Statechart

namespace Chart

variable {c : Chart} {configuration : NodeSet}

/-! ## Paths of states -/

/-- The keys from below the root down to a state. -/
def keysTo (c : Chart) (n : Nat) : List String :=
  (n :: c.ancestors n).reverse.tail.map fun k => (c.node k).key

/-- The dotted path of a state from below the root. -/
def keyPath (c : Chart) (n : Nat) : String := ".".intercalate (c.keysTo n)

theorem keysTo_root (h : c.IsTree) : c.keysTo root = [] := by
  rw [keysTo, ancestors_of_none h.parent_root]
  rfl

theorem keysTo_of_parent (h : c.IsTree) {n p : Nat} (hp : (c.node n).parent = some p) :
    c.keysTo n = c.keysTo p ++ [(c.node n).key] := by
  have hne : (p :: c.ancestors p).reverse ≠ [] := by simp
  rw [keysTo, ancestors_of_some h hp, List.reverse_cons, List.tail_append_of_ne_nil hne,
    List.map_append]
  rfl

theorem keysTo_ne_nil (h : c.IsTree) {n : Nat} (hn : n < c.size) (hr : n ≠ root) :
    c.keysTo n ≠ [] := by
  obtain ⟨p, hp⟩ := h.exists_parent hn hr
  rw [keysTo_of_parent h hp]
  simp

/-- The keys on the way to a state are those of states below the root. -/
theorem exists_of_mem_keysTo (h : c.IsTree) {n : Nat} (hn : n < c.size) {key : String}
    (hk : key ∈ c.keysTo n) : ∃ k < c.size, k ≠ root ∧ (c.node k).key = key := by
  refine h.induct_within (P := fun n => key ∈ c.keysTo n → _) (fun hk => ?_)
    (fun n p hp _ ih hk => ?_) (h.within_root hn) hk
  · rw [keysTo_root h] at hk
    exact absurd hk List.not_mem_nil
  · rw [keysTo_of_parent h hp, List.mem_append, List.mem_singleton] at hk
    rcases hk with hk | rfl
    · exact ih hk
    · refine ⟨n, lt_size_of_parent hp, fun e => ?_, rfl⟩
      rw [e, h.parent_root] at hp
      cases hp

/-- Where siblings have keys of their own, a row of keys leads to one state only. -/
theorem keysTo_injective (h : c.IsTree) (hkeys : c.Keyed) {n m : Nat} (hn : n < c.size)
    (hm : m < c.size) (he : c.keysTo n = c.keysTo m) : n = m := by
  revert m
  refine h.induct_within (P := fun n => ∀ {m}, m < c.size → c.keysTo n = c.keysTo m → n = m)
    (fun {m} hm he => ?_) (fun n p hp _ ih {m} hm he => ?_) (h.within_root hn)
  · by_contra hne
    exact keysTo_ne_nil h hm (Ne.symm hne) (by rw [← he, keysTo_root h])
  · have hmr : m ≠ root := fun e => by
      rw [e, keysTo_root h, keysTo_of_parent h hp] at he
      simp at he
    obtain ⟨q, hq⟩ := h.exists_parent hm hmr
    rw [keysTo_of_parent h hp, keysTo_of_parent h hq] at he
    obtain ⟨hpq, hkey⟩ := List.append_inj' he rfl
    obtain rfl := ih (h.parent_lt_size hq) hpq
    exact hkeys n m p hp hq (by simpa using hkey)

/-! ## Rows of keys through active children -/

/-- A row of keys leads from one state down to another, through active children. -/
def LeadsDown (c : Chart) (configuration : NodeSet) : Nat → List String → Nat → Prop
  | n, [], m => m = n
  | n, key :: rest, m =>
    ∃ k ∈ c.activeChildren n configuration, (c.node k).key = key ∧
      LeadsDown c configuration k rest m

theorem LeadsDown.snoc (h : c.IsTree) {keys : List String} {m k : Nat}
    (hk : k ∈ configuration) (hp : (c.node k).parent = some m) :
    ∀ {n}, c.LeadsDown configuration n keys m →
      c.LeadsDown configuration n (keys ++ [(c.node k).key]) k := by
  induction keys with
  | nil =>
    rintro n rfl
    exact ⟨k, (mem_activeChildren h).mpr ⟨hp, hk⟩, rfl, rfl⟩
  | cons key keys ih =>
    rintro n ⟨j, hj, hkey, hd⟩
    exact ⟨j, hj, hkey, ih hd⟩

/-- What a row leads to is active, and has the keys of the row behind those of its beginning. -/
theorem LeadsDown.keysTo (h : c.IsTree) {keys : List String} {m : Nat} :
    ∀ {n}, n ∈ configuration → c.LeadsDown configuration n keys m →
      m ∈ configuration ∧ c.keysTo m = c.keysTo n ++ keys := by
  induction keys with
  | nil =>
    rintro n hn rfl
    exact ⟨hn, (List.append_nil _).symm⟩
  | cons key keys ih =>
    rintro n hn ⟨k, hk, rfl, hd⟩
    obtain ⟨hp, hka⟩ := (mem_activeChildren h).mp hk
    obtain ⟨hm, he⟩ := ih hka hd
    exact ⟨hm, by rw [he, keysTo_of_parent h hp, List.append_assoc, List.singleton_append]⟩

theorem Legal.leadsDown (h : c.IsTree) (hl : c.Legal configuration) {m : Nat}
    (hm : m ∈ configuration) : c.LeadsDown configuration root (c.keysTo m) m := by
  refine h.induct_within (P := fun m => m ∈ configuration →
    c.LeadsDown configuration root (c.keysTo m) m) (fun _ => ?_) (fun n p hp _ ih hn => ?_)
    (h.within_root (hl.lt_size m hm)) hm
  · rw [keysTo_root h]
    rfl
  · rw [keysTo_of_parent h hp]
    exact (ih (hl.parent_mem n hn p hp)).snoc h hn hp

end Chart

/-! ## What a value has -/

namespace StateValue

variable {c : Chart} {configuration : NodeSet} {names : Names}

theorem hasKeys_nil (v : StateValue) : v.hasKeys [] = true := by
  cases v <;> rfl

theorem ofConfigurationWithin_leaf (h : c.Accepted names) {n : Nat}
    (hn : (c.node n).isLeaf = true) (levels : Nat) :
    ofConfigurationWithin c configuration levels n = .branch [] := by
  obtain ⟨hc, hp⟩ := Node.not_inner_of_leaf hn
  cases levels with
  | zero => rfl
  | succ levels => simp [ofConfigurationWithin, Chart.activeChildren, h.children_eq_nil hc hp, hp]

theorem hasKeys_empty (keys : List String) : (branch []).hasKeys keys = keys.isEmpty := by
  cases keys <;> rfl

/-- Where siblings have keys of their own, a map by the keys of active children holds for a key
what is shown of the child of that key. -/
theorem get?_children (h : c.IsTree) (hkeys : c.Keyed) {n : Nat} (f : Nat → StateValue)
    {key : String} {v : StateValue} :
    Dict.get? (Dict.ofList ((c.activeChildren n configuration).map fun k =>
        ((c.node k).key, f k))) key = some v ↔
      ∃ k ∈ c.activeChildren n configuration, (c.node k).key = key ∧ f k = v := by
  have hnodup : ((c.activeChildren n configuration).map fun k => (c.node k).key).Nodup :=
    ((h.children_nodup n).filter _).map_on fun k hk l hl => hkeys k l n
      ((Chart.mem_activeChildren h).mp hk).1 ((Chart.mem_activeChildren h).mp hl).1
  constructor
  · intro hv
    obtain ⟨k, hk, he⟩ := List.mem_map.mp (Dict.mem_of_mem_ofList (Dict.mem_of_get? hv))
    exact ⟨k, hk, congrArg Prod.fst he, congrArg Prod.snd he⟩
  · rintro ⟨k, hk, rfl, rfl⟩
    refine Dict.get?_ofList (by simpa [Function.comp_def] using hnodup) ?_
    exact List.mem_map.mpr ⟨k, hk, rfl⟩

/-- One key leads from an active state to the active child of that key. -/
theorem hasKeys_cons (h : c.Accepted names) (hkeys : c.Keyed) (hl : c.Legal configuration)
    {levels n : Nat} (hn : n ∈ configuration) (key : String) (rest : List String) :
    (ofConfigurationWithin c configuration (levels + 1) n).hasKeys (key :: rest) = true ↔
      ∃ k ∈ c.activeChildren n configuration, (c.node k).key = key ∧
        (ofConfigurationWithin c configuration levels k).hasKeys rest = true := by
  rcases Node.kind_cases (hl.not_history n hn) with hleaf | hcomp | hpar
  · obtain ⟨hc, hp⟩ := Node.not_inner_of_leaf hleaf
    rw [ofConfigurationWithin_leaf h hleaf, hasKeys_empty, Chart.activeChildren,
      h.children_eq_nil hc hp]
    simp
  · obtain ⟨k, hk⟩ := hl.child n hn hcomp
    simp only [ofConfigurationWithin, Node.not_parallel_of_compound hcomp, hk, Bool.false_eq_true,
      if_false, List.mem_singleton, exists_eq_left]
    -- a leaf shows as its key, any other child as an entry under its key
    cases hkl : (c.node k).isLeaf with
    | true => simp [hasKeys, ofConfigurationWithin_leaf h hkl, hasKeys_empty, and_comm]
    | false => by_cases he : (c.node k).key = key <;> simp [hasKeys, Dict.get?, he]
  · have hplain : ∀ k, (if (c.node k).isLeaf then branch []
        else ofConfigurationWithin c configuration levels k) =
          ofConfigurationWithin c configuration levels k := fun k => by
      split
      · next hkl => exact (ofConfigurationWithin_leaf h hkl levels).symm
      · rfl
    simp only [ofConfigurationWithin, hpar, if_true, hplain, hasKeys]
    cases hget : Dict.get? (Dict.ofList ((c.activeChildren n configuration).map fun k =>
        ((c.node k).key, ofConfigurationWithin c configuration levels k))) key with
    | none =>
      refine iff_of_false Bool.false_ne_true ?_
      rintro ⟨k, hk, hkey, -⟩
      rw [(get?_children h.toIsTree hkeys _).mpr ⟨k, hk, hkey, rfl⟩] at hget
      cases hget
    | some v =>
      obtain ⟨k, hk, rfl, rfl⟩ := (get?_children h.toIsTree hkeys _).mp hget
      constructor
      · exact fun hr => ⟨k, hk, rfl, hr⟩
      · rintro ⟨l, hl, hkey, hr⟩
        rwa [hkeys k l n ((Chart.mem_activeChildren h.toIsTree).mp hk).1
          ((Chart.mem_activeChildren h.toIsTree).mp hl).1 hkey.symm]

/-- A value has the rows of keys that lead down from its state. -/
theorem hasKeys_within_iff (h : c.Accepted names) (hkeys : c.Keyed) (hl : c.Legal configuration)
    {keys : List String} :
    ∀ {levels n : Nat}, n ∈ configuration → c.size ≤ n + levels →
      ((ofConfigurationWithin c configuration levels n).hasKeys keys = true ↔
        ∃ m, c.LeadsDown configuration n keys m) := by
  induction keys with
  | nil => exact fun {_ n} _ _ => ⟨fun _ => ⟨n, rfl⟩, fun _ => hasKeys_nil _⟩
  | cons key rest ih =>
    intro levels n hn hlevels
    have hlt := hl.lt_size n hn
    obtain ⟨levels, rfl⟩ : ∃ less, levels = less + 1 := ⟨levels - 1, by omega⟩
    have hchild : ∀ k ∈ c.activeChildren n configuration,
        ((ofConfigurationWithin c configuration levels k).hasKeys rest = true ↔
          ∃ m, c.LeadsDown configuration k rest m) := fun k hk => by
      obtain ⟨hp, hka⟩ := (Chart.mem_activeChildren h.toIsTree).mp hk
      have := h.parent_lt hp
      exact ih hka (by omega)
    rw [hasKeys_cons h hkeys hl hn]
    constructor
    · rintro ⟨k, hk, hkey, hr⟩
      obtain ⟨m, hm⟩ := (hchild k hk).mp hr
      exact ⟨m, k, hk, hkey, hm⟩
    · rintro ⟨m, k, hk, hkey, hm⟩
      exact ⟨k, hk, hkey, (hchild k hk).mpr ⟨m, hm⟩⟩

/-- The value of a legal configuration has the keys of the active states. -/
theorem hasKeys_iff (h : c.Accepted names) (hkeys : c.Keyed) (hl : c.Legal configuration)
    {keys : List String} : (ofConfiguration c Chart.root configuration).hasKeys keys = true ↔
      ∃ m ∈ configuration, c.keysTo m = keys := by
  rw [ofConfiguration, hasKeys_within_iff h hkeys hl hl.root_mem (by omega)]
  constructor
  · rintro ⟨m, hm⟩
    obtain ⟨hmc, he⟩ := hm.keysTo h.toIsTree hl.root_mem
    exact ⟨m, hmc, by rw [he, Chart.keysTo_root h.toIsTree, List.nil_append]⟩
  · rintro ⟨m, hm, rfl⟩
    exact ⟨m, hl.leadsDown h.toIsTree hm⟩

end StateValue

/-! ## Paths of a built machine -/

namespace Machine

variable {C E A : Type} {m : Machine C E A} {registry : Registry C E A} {context : C}
  {maxMicrosteps : Nat} {d : Definition}

/-- The value of a legal configuration matches the path of a state exactly if the state is
active, and it matches no path but those of states. -/
theorem matches_iff_active (hb : build registry context maxMicrosteps d = .ok m)
    (hkeys : ∀ n < m.chart.size, n ≠ Chart.root →
      (m.chart.node n).key ≠ "" ∧ '.' ∉ (m.chart.node n).key.toList)
    {configuration : NodeSet} (hl : m.chart.Legal configuration) :
    (∀ n < m.chart.size, n ≠ Chart.root →
      ((StateValue.ofConfiguration m.chart Chart.root configuration).matches?
        (m.chart.keyPath n) = true ↔ n ∈ configuration)) ∧
    ∀ path : String, (∀ segment ∈ Path.segments path.toList, segment ≠ "") →
      (StateValue.ofConfiguration m.chart Chart.root configuration).matches? path = true →
      ∃ n < m.chart.size, n ≠ Chart.root ∧ path = m.chart.keyPath n := by
  have h := accepted_of_build hb
  have hkeyed := keyed_of_build hb
  have hsegments : ∀ n < m.chart.size, n ≠ Chart.root →
      (Path.segments (m.chart.keyPath n).toList).filter (· ≠ "") = m.chart.keysTo n := by
    intro n hn hr
    have hplain : ∀ key ∈ m.chart.keysTo n, key ≠ "" ∧ '.' ∉ key.toList := fun key hk => by
      obtain ⟨k, hks, hkr, rfl⟩ := Chart.exists_of_mem_keysTo h.toIsTree hn hk
      exact hkeys k hks hkr
    rw [Chart.keyPath, Path.segments_intercalate (Chart.keysTo_ne_nil h.toIsTree hn hr)
      fun key hk => (hplain key hk).2]
    exact List.filter_eq_self.mpr fun key hk => by simpa using (hplain key hk).1
  constructor
  · intro n hn hr
    rw [StateValue.matches?, hsegments n hn hr, StateValue.hasKeys_iff h hkeyed hl]
    refine ⟨fun ⟨k, hk, he⟩ => ?_, fun hm => ⟨n, hm, rfl⟩⟩
    rwa [← Chart.keysTo_injective h.toIsTree hkeyed (hl.lt_size k hk) hn he]
  · intro path hpath hm
    have hself : (Path.segments path.toList).filter (· ≠ "") = Path.segments path.toList :=
      List.filter_eq_self.mpr fun s hs => by simpa using hpath s hs
    rw [StateValue.matches?, hself, StateValue.hasKeys_iff h hkeyed hl] at hm
    obtain ⟨n, hn, he⟩ := hm
    refine ⟨n, hl.lt_size n hn, fun hr => ?_, ?_⟩
    · rw [hr, Chart.keysTo_root h.toIsTree] at he
      exact Path.segments_ne_nil _ he.symm
    · rw [Chart.keyPath, he, Path.intercalate_segments]

/-- At the start the player shows its small picture, and its value says so. -/
theorem matches_player : ∃ s, playerMachine.initial = .ok s ∧
    playerMachine.chart.Legal s.configuration ∧
    (∀ n < playerMachine.chart.size, n ≠ Chart.root →
      (playerMachine.chart.node n).key ≠ "" ∧ '.' ∉ (playerMachine.chart.node n).key.toList) ∧
    playerMachine.chart.keyPath 3 = "on.picture.small" ∧
    ((StateValue.ofConfiguration playerMachine.chart Chart.root s.configuration).matches?
      "on.picture.small" = true ↔ 3 ∈ s.configuration) := by
  have hb := player_built
  have wf : playerMachine.chart.WellFormed := by decide +kernel
  have hkeys : ∀ n < playerMachine.chart.size, n ≠ Chart.root →
      (playerMachine.chart.node n).key ≠ "" ∧ '.' ∉ (playerMachine.chart.node n).key.toList := by
    decide +kernel
  have hpath : playerMachine.chart.keyPath 3 = "on.picture.small" := by decide +kernel
  have hs := ok_of_isOk (x := playerMachine.initial)
    ⟨.leaf "", ∅, (), [], { type := "" }, [], false, false⟩ (by decide +kernel)
  have hl := ((reachable_of_initial hs).sound (accepted_of_build hb) wf).legal
  refine ⟨_, hs, hl, hkeys, hpath, ?_⟩
  exact hpath ▸ (matches_iff_active hb hkeys hl).1 3 (by decide +kernel) (by decide)

end Machine

end Statechart
