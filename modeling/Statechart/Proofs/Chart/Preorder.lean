import Mathlib.Data.List.Forall2
import Statechart.Proofs.Chart.Layout

/-!
# A layout is the document order

Slots are numbered while the tree is walked: a state gets its number before its children, the end
of its subtree is known only when they are done. `Chart.LaysOut` says what comes of it, in terms of
the definition and of the way up along the parent links alone: the numbers are places in the
document order, the children of a state are the ones declared in it, and the comparison of numbers
that `isDescendant` makes tells whether one state is met on the way up from the other.

* `lists_slotsFrom`: a slot has the slots of the declared children as its children, one level down.
* `Layout.depth_eq`: the depth counts the states on the way up.
* `Chart.IsTree.commonCompound_deepest`: the least common compound ancestor is the deepest.
* `Layout.laysOut_chart`: the chart of every definition, accepted or not.
-/
namespace Statechart

/-! ## Document order -/

namespace Definition

mutual

/-- The states of a definition in document order. -/
def preorder : Definition → List Definition
  | d@⟨_, _, _, _, _, _, states, _, _, _, _, _, _, _⟩ => d :: preorderAll states

/-- The states of a list of definitions in document order. -/
def preorderAll : List Definition → List Definition
  | [] => []
  | d :: rest => preorder d ++ preorderAll rest

end

end Definition

mutual

theorem preorder_slotsFrom (parent : Option Nat) (path : String) (depth start : Nat) :
    ∀ d : Definition, (slotsFrom parent path depth start d).map Slot.definition = d.preorder
  | ⟨_, _, _, _, _, _, states, _, _, _, _, _, _, _⟩ => by
    rw [slotsFrom, Definition.preorder, List.map_cons, preorderAll_slotsFromAll]

theorem preorderAll_slotsFromAll (parent : Nat) (path : String) (depth start : Nat) :
    ∀ ds : List Definition,
      (slotsFromAll parent path depth start ds).map Slot.definition = Definition.preorderAll ds
  | [] => rfl
  | d :: rest => by
    rw [slotsFromAll, Definition.preorderAll, List.map_append, preorder_slotsFrom,
      preorderAll_slotsFromAll]

end

/-! ## Children -/

/-- The children of a slot are those that are declared in it, in their order, one level down. -/
def Slot.Lists (g : Nat → Slot) (n : Nat) : Prop :=
  List.Forall₂ (fun k s => (g k).depth = (g n).depth + 1 ∧ (g k).definition = s)
    (g n).children (g n).definition.states

mutual

theorem lists_slotsFrom (g : Nat → Slot) (parent : Option Nat) (path : String)
    (depth start : Nat) :
    ∀ d : Definition, Occupies g start (slotsFrom parent path depth start d) →
      ((g start).depth = depth ∧ (g start).definition = d) ∧
        ∀ n, start ≤ n → n < start + d.size → Slot.Lists g n
  | ⟨_, _, _, _, _, _, states, _, _, _, _, _, _, _⟩, h => by
    rw [slotsFrom] at h
    obtain ⟨hs, hrest⟩ := occupies_cons h
    obtain ⟨hroots, hinner⟩ :=
      lists_slotsFromAll g start path (depth + 1) (start + 1) states hrest
    refine ⟨by rw [hs]; exact ⟨rfl, rfl⟩, fun n h1 h2 => ?_⟩
    rw [Definition.size] at h2
    rcases Nat.eq_or_lt_of_le h1 with rfl | hlt
    · rw [Slot.Lists, hs]; exact hroots
    · exact hinner n hlt (by omega)

theorem lists_slotsFromAll (g : Nat → Slot) (parent : Nat) (path : String) (depth start : Nat) :
    ∀ ds : List Definition, Occupies g start (slotsFromAll parent path depth start ds) →
      List.Forall₂ (fun k s => (g k).depth = depth ∧ (g k).definition = s)
          (startsFrom start ds) ds ∧
        ∀ n, start ≤ n → n < start + Definition.sizeAll ds → Slot.Lists g n
  | [], _ => ⟨.nil, fun n h1 h2 => by rw [Definition.sizeAll] at h2; omega⟩
  | d :: rest, h => by
    rw [slotsFromAll] at h
    obtain ⟨hd, hrest⟩ := occupies_append h
    rw [length_slotsFrom] at hrest
    obtain ⟨hroot, hfirst⟩ :=
      lists_slotsFrom g (some parent) (path ++ "." ++ d.key) depth start d hd
    obtain ⟨hroots, hothers⟩ :=
      lists_slotsFromAll g parent path depth (start + d.size) rest hrest
    refine ⟨.cons hroot hroots, fun n h1 h2 => ?_⟩
    rw [Definition.sizeAll] at h2
    by_cases hn : n < start + d.size
    · exact hfirst n h1 hn
    · exact hothers n (by omega) (by omega)

end

/-! ## Ancestry -/

namespace Chart

variable {c : Chart}

/-- A compound state that is met on the way up from every state of a list. -/
def Encloses (c : Chart) (a : Nat) (states : List Nat) : Prop :=
  (c.node a).isCompound = true ∧ ∀ n ∈ states, a ∈ c.ancestors n

/-- The states of a chart are those of a definition in document order, and what it says about
containment is what its parent links say. -/
structure LaysOut (c : Chart) (d : Definition) : Prop where
  size : c.size = d.preorder.length
  declared : ∀ n s, d.preorder[n]? = some s →
    (∀ id, s.id = some id → (c.node n).id = id) ∧ (c.node n).key = s.key ∧
      (c.node n).kind = s.resolvedKind ∧ (c.node n).entry = s.entry ∧ (c.node n).exit = s.exit
  /-- The children are the states that are declared in the state, in the same order. -/
  children : ∀ n s, d.preorder[n]? = some s →
    List.Forall₂ (fun k t => d.preorder[k]? = some t) (c.node n).children s.states
  mem_children : ∀ n k, k ∈ (c.node n).children ↔ (c.node k).parent = some n
  children_sorted : ∀ n, (c.node n).children.Pairwise (· < ·)
  parent_eq_none : ∀ n, n < c.size → ((c.node n).parent = none ↔ n = root)
  parent_lt : ∀ n p, (c.node n).parent = some p → p < n
  /-- The way up goes from parent to parent and ends only where there is none. -/
  ancestors : ∀ n, c.ancestors n =
    match (c.node n).parent with
    | none => []
    | some p => p :: c.ancestors p
  depth : ∀ n, (c.node n).depth = (c.ancestors n).length
  isDescendant : ∀ n a, c.isDescendant n a = true ↔ a ∈ c.ancestors n
  /-- The least common compound ancestor is the deepest state that encloses all, and the root
  if there is none. -/
  commonCompound : ∀ states, states ≠ [] →
    (c.Encloses (c.commonCompound states) states ∧
      ∀ a, c.Encloses a states → a ≠ c.commonCompound states →
        (c.node a).depth < (c.node (c.commonCompound states)).depth) ∨
    ((∀ a, ¬ c.Encloses a states) ∧ c.commonCompound states = root)

namespace IsTree

/-- From a state there are more states on the way up than from one that contains it. -/
theorem length_ancestors_lt (h : c.IsTree) {n a : Nat} (hd : c.isDescendant n a = true) :
    (c.ancestors a).length < (c.ancestors n).length := by
  induction n using Nat.strongRecOn with
  | ind n ih =>
    obtain ⟨p, hp⟩ := h.exists_parent_of_isDescendant hd
    rw [ancestors_of_some h hp, List.length_cons]
    rw [h.isDescendant_parent hp] at hd
    rcases hd with rfl | hd
    · exact Nat.lt_succ_self _
    · exact Nat.lt_succ_of_lt (ih p (h.parent_lt hp) hd)

/-- What the search for the least common compound ancestor looks for on the way up. -/
theorem encloses_cons (h : c.IsTree) {a n : Nat} {rest : List Nat} :
    c.Encloses a (n :: rest) ↔ a ∈ c.ancestors n ∧
      ((c.node a).isCompound && rest.all fun m => c.isDescendant m a) = true := by
  simp only [Encloses, List.forall_mem_cons, Bool.and_eq_true, List.all_eq_true, mem_ancestors h]
  exact and_left_comm

/-- The least common compound ancestor is the deepest compound state that contains all
states of a list; the root stands in where there is none. -/
theorem commonCompound_deepest (h : c.IsTree) (n : Nat) (rest : List Nat) :
    (c.Encloses (c.commonCompound (n :: rest)) (n :: rest) ∧
      ∀ a, c.Encloses a (n :: rest) → a ≠ c.commonCompound (n :: rest) →
        c.isDescendant (c.commonCompound (n :: rest)) a = true) ∨
    ((∀ a, ¬ c.Encloses a (n :: rest)) ∧ c.commonCompound (n :: rest) = root) := by
  dsimp only [Chart.commonCompound]
  cases hf : (c.ancestors n).find? fun a =>
      (c.node a).isCompound && rest.all fun m => c.isDescendant m a with
  | none =>
    refine .inr ⟨fun a ha => ?_, rfl⟩
    obtain ⟨hup, hall⟩ := h.encloses_cons.mp ha
    exact List.find?_eq_none.mp hf a hup hall
  | some b =>
    obtain ⟨hall, nearer, further, hway, hnearer⟩ := List.find?_eq_some_iff_append.mp hf
    have hb : b ∈ c.ancestors n := List.mem_of_find?_eq_some hf
    refine .inl ⟨h.encloses_cons.mpr ⟨hb, hall⟩, fun a ha hne => ?_⟩
    obtain ⟨hup, hfits⟩ := h.encloses_cons.mp ha
    -- What comes before `b` on the way up does not fit, so `a` comes after it.
    have hfurther : a ∈ further := by
      rw [hway, List.mem_append, List.mem_cons] at hup
      rcases hup with hbefore | rfl | hafter
      · have := hnearer a hbefore
        rw [hfits] at this
        cases this
      · exact absurd rfl hne
      · exact hafter
    have hdescending := (List.pairwise_cons.mp (ancestors_descending h n)).2
    rw [hway] at hdescending
    have hlt : a < b :=
      (List.pairwise_cons.mp (List.pairwise_append.mp hdescending).2.1).1 a hfurther
    exact h.comparable ((mem_ancestors h).mp (h.encloses_cons.mp ha).1) ((mem_ancestors h).mp hb)
      hlt

end IsTree

end Chart

namespace Layout

variable (d : Definition)

/-- The slot of a number is that of the state in this place of the document order. -/
theorem preorder_getElem? (n : Nat) :
    d.preorder[n]? = if n < (ofDefinition d).slots.size
      then some ((ofDefinition d).slot n).definition else none := by
  have hslots : (ofDefinition d).slots.toList.map Slot.definition = d.preorder :=
    preorder_slotsFrom none d.key 0 0 d
  rw [← hslots, List.getElem?_map]
  split
  · rename_i hn
    simp [slot, hn]
  · rename_i hn
    simp [Nat.le_of_not_lt hn]

theorem definition_mem_preorder {n : Nat} (hn : n < (ofDefinition d).slots.size) :
    ((ofDefinition d).slot n).definition ∈ d.preorder := by
  refine List.mem_of_getElem? (i := n) ?_
  rw [preorder_getElem?, if_pos hn]

theorem lists_ofDefinition :
    ((ofDefinition d).slot 0).depth = 0 ∧
      ∀ n, n < (ofDefinition d).slots.size → Slot.Lists (ofDefinition d).slot n := by
  obtain ⟨⟨hdepth, -⟩, hlists⟩ := lists_slotsFrom _ none d.key 0 0 d (occupies_ofDefinition d)
  refine ⟨hdepth, fun n hn => hlists n (Nat.zero_le _) ?_⟩
  rwa [Nat.zero_add, ← size_ofDefinition]

theorem depth_of_parent {n p : Nat} (hp : ((ofDefinition d).chart.node n).parent = some p) :
    ((ofDefinition d).chart.node n).depth = ((ofDefinition d).chart.node p).depth + 1 := by
  have htree := isTree_chart d
  have hn := (ofDefinition d).size_chart ▸ Chart.lt_size_of_parent hp
  have hpn := Nat.lt_trans (htree.parent_lt hp) hn
  have hk := htree.mem_children.mpr hp
  rw [node_chart _ hpn] at hk
  rw [node_chart _ hn, node_chart _ hpn]
  exact ((List.forall₂_and_left _ _).mp ((lists_ofDefinition d).2 p hpn)).1 n hk

/-- The depth of a state is the number of states on the way up from it. -/
theorem depth_eq (n : Nat) :
    ((ofDefinition d).chart.node n).depth = ((ofDefinition d).chart.ancestors n).length := by
  have htree := isTree_chart d
  induction n using Nat.strongRecOn with
  | ind n ih =>
    cases hp : ((ofDefinition d).chart.node n).parent with
    | some p =>
      rw [depth_of_parent d hp, Chart.ancestors_of_some htree hp, ih p (htree.parent_lt hp)]
      rfl
    | none =>
      rw [Chart.ancestors_of_none hp]
      by_cases hn : n < (ofDefinition d).chart.size
      · obtain rfl : n = Chart.root := by
          by_contra hne
          obtain ⟨p, hp'⟩ := htree.exists_parent hn hne
          rw [hp] at hp'; cases hp'
        rw [(ofDefinition d).size_chart] at hn
        rw [node_chart _ hn]
        exact (lists_ofDefinition d).1
      · rw [Chart.node_of_size_le (by omega)]
        rfl

/-- The chart of every definition lays it out: its states stand in document order, children
in the order they are declared in, the depth counts the proper ancestors, and the comparison of
numbers agrees with the parent links, so that the least common compound ancestor is the deepest
compound state above all states of a list. Nothing is asked of the definition; it need not be
accepted. -/
theorem laysOut_chart : (ofDefinition d).chart.LaysOut d := by
  have htree := isTree_chart d
  have hplace : ∀ {n s}, d.preorder[n]? = some s →
      n < (ofDefinition d).slots.size ∧ ((ofDefinition d).slot n).definition = s := by
    intro n s hs
    rw [preorder_getElem?] at hs
    split at hs
    · exact ⟨‹_›, Option.some.inj hs⟩
    · cases hs
  refine {
    size := ?_
    declared := fun n s hs => ?_
    children := fun n s hs => ?_
    mem_children := fun n k => htree.mem_children
    children_sorted := htree.children_sorted
    parent_eq_none := fun n hn => ⟨fun hp => ?_, fun hr => hr ▸ htree.parent_root⟩
    parent_lt := fun n p => htree.parent_lt
    ancestors := fun n => ?_
    depth := depth_eq d
    isDescendant := fun n a => (Chart.mem_ancestors htree).symm
    commonCompound := fun states hne => ?_ }
  · rw [size_chart, ← preorder_slotsFrom none d.key 0 0 d]
    simp [ofDefinition]
  · obtain ⟨hn, rfl⟩ := hplace hs
    rw [node_chart _ hn]
    exact ⟨fun id hid => by simp [node, Slot.id, hid], rfl, rfl, rfl, rfl⟩
  · obtain ⟨hn, rfl⟩ := hplace hs
    have hin : ∀ k ∈ ((ofDefinition d).chart.node n).children, k < (ofDefinition d).slots.size :=
      fun k hk => (ofDefinition d).size_chart ▸ Chart.lt_size_of_parent (htree.mem_children.mp hk)
    rw [node_chart _ hn] at hin ⊢
    have hlists := ((List.forall₂_and_left _ _).mp ((lists_ofDefinition d).2 n hn)).2
    refine ((List.forall₂_and_left _ _).mpr ⟨hin, hlists⟩).imp ?_
    rintro k t ⟨hk, ht⟩
    rw [preorder_getElem?, if_pos hk, ht]
  · by_contra hne
    obtain ⟨p, hp'⟩ := htree.exists_parent hn hne
    rw [hp] at hp'; cases hp'
  · cases hp : ((ofDefinition d).chart.node n).parent with
    | none => exact Chart.ancestors_of_none hp
    | some p => exact Chart.ancestors_of_some htree hp
  · obtain ⟨n, rest, rfl⟩ := List.exists_cons_of_ne_nil hne
    rcases htree.commonCompound_deepest n rest with ⟨hin, hdeep⟩ | hnone
    · refine .inl ⟨hin, fun a ha hna => ?_⟩
      rw [depth_eq, depth_eq]
      exact htree.length_ancestors_lt (hdeep a ha hna)
    · exact .inr hnone

/-- A room with a desk, where a lamp and a drawer have states of their own. -/
def room : Definition := {
  key := "room"
  states := [
    { key := "desk"
      kind := some .parallel
      states := [
        { key := "lamp", states := [{ key := "off" }, { key := "on" }] },
        { key := "drawer", states := [{ key := "shut" }, { key := "open" }] }] }] }

/-- The lamp contains both its states. The desk contains the lamp's and the drawer's, but it is
parallel, so that the room is the nearest compound state around them. -/
example : (ofDefinition room).chart.ancestors 4 = [2, 1, 0] ∧
    (ofDefinition room).chart.commonCompound [4, 3] = 2 ∧
    (ofDefinition room).chart.commonCompound [4, 6] = 0 := by decide +kernel

end Layout

end Statechart
