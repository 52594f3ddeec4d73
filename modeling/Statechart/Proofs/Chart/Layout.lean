import Statechart.Chart.Build
import Statechart.Proofs.Chart.Tree

/-!
# Layouts are trees

`slotsFrom` lays a definition out in one pass, and the numbers in a slot are computed before
the slots they point at are there. `Forest` states what the numbers of a range of slots say
about each other; it is put together along the recursion of `slotsFrom` by `Forest.node`
(a state over its children) and `Forest.append` (one child after the other).

* `isTree_chart`: the chart of every definition is a tree, accepted or not.
-/
namespace Statechart

/-- The slots that `g` has from `start` on are those of the list. -/
def Occupies (g : Nat → Slot) (start : Nat) (slots : List Slot) : Prop :=
  ∀ i s, slots[i]? = some s → g (start + i) = s

theorem occupies_cons {g : Nat → Slot} {start : Nat} {s : Slot} {slots : List Slot}
    (h : Occupies g start (s :: slots)) : g start = s ∧ Occupies g (start + 1) slots := by
  refine ⟨h 0 s rfl, fun i t ht => ?_⟩
  rw [show start + 1 + i = start + (i + 1) by omega]
  exact h (i + 1) t (by simpa using ht)

theorem occupies_append {g : Nat → Slot} {start : Nat} {slots more : List Slot}
    (h : Occupies g start (slots ++ more)) :
    Occupies g start slots ∧ Occupies g (start + slots.length) more := by
  refine ⟨fun i t ht => h i t ?_, fun i t ht => ?_⟩
  · have hi := (List.getElem?_eq_some_iff.mp ht).1
    rw [List.getElem?_append_left hi, ht]
  · rw [Nat.add_assoc]
    refine h (slots.length + i) t ?_
    rw [List.getElem?_append_right (by omega), Nat.add_sub_cancel_left, ht]

/-- The slots from `lo` to below `hi` are a row of trees with these roots, all below `parent`. -/
structure Forest (g : Nat → Slot) (parent : Option Nat) (roots : List Nat) (lo hi : Nat) :
    Prop where
  stop : ∀ n, lo ≤ n → n < hi → n < (g n).stop ∧ (g n).stop ≤ hi
  roots_parent : ∀ n ∈ roots, lo ≤ n ∧ n < hi ∧ (g n).parent = parent ∧
    ∀ a, lo ≤ a → a < n → (g a).stop ≤ n
  inner_parent : ∀ n, lo ≤ n → n < hi → n ∉ roots → ∃ p, lo ≤ p ∧ p < n ∧
    (g n).parent = some p ∧
    ∀ a, lo ≤ a → a < n → (n < (g a).stop ↔ a = p ∨ (a < p ∧ p < (g a).stop))
  children : ∀ n, lo ≤ n → n < hi → ∀ k,
    k ∈ (g n).children ↔ lo ≤ k ∧ k < hi ∧ (g k).parent = some n
  sorted : ∀ n, lo ≤ n → n < hi → (g n).children.Pairwise (· < ·)
  roots_sorted : roots.Pairwise (· < ·)

namespace Forest

variable {g : Nat → Slot}

theorem empty (parent : Option Nat) (lo : Nat) : Forest g parent [] lo lo where
  stop n _ _ := by omega
  roots_parent n hn := absurd hn List.not_mem_nil
  inner_parent n _ _ := by omega
  children n _ _ := by omega
  sorted n _ _ := by omega
  roots_sorted := .nil

/-- A state over the row of its children is a tree. -/
theorem node {parent : Option Nat} {roots : List Nat} {lo hi : Nat}
    (hf : Forest g (some lo) roots (lo + 1) hi) (hlo : lo < hi)
    (hparent : (g lo).parent = parent) (hchildren : (g lo).children = roots)
    (hstop : (g lo).stop = hi) (above : ∀ p, parent = some p → p < lo) :
    Forest g parent [lo] lo hi where
  stop n h1 h2 := by
    by_cases hn : n = lo
    · subst hn; omega
    · exact hf.stop n (by omega) h2
  roots_parent n hn := by
    obtain rfl := List.mem_singleton.mp hn
    exact ⟨Nat.le_refl _, hlo, hparent, fun a h1 h2 => by omega⟩
  inner_parent n h1 h2 hn := by
    have hne : n ≠ lo := fun e => hn (List.mem_singleton.mpr e)
    by_cases hr : n ∈ roots
    · obtain ⟨h3, -, h4, h5⟩ := hf.roots_parent n hr
      refine ⟨lo, Nat.le_refl _, by omega, h4, fun a ha1 ha2 => ?_⟩
      by_cases ha : a = lo
      · subst ha; omega
      · have := h5 a (by omega) ha2
        omega
    · obtain ⟨p, h3, h4, h5, h6⟩ := hf.inner_parent n (by omega) h2 hr
      refine ⟨p, by omega, h4, h5, fun a ha1 ha2 => ?_⟩
      by_cases ha : a = lo
      · subst ha; omega
      · exact h6 a (by omega) ha2
  children n h1 h2 k := by
    have hlo' : ∀ m, lo ≤ m → (g lo).parent ≠ some m := fun m hm e => by
      have := above m (hparent ▸ e); omega
    by_cases hn : n = lo
    · subst hn
      rw [hchildren]
      constructor
      · intro hk
        obtain ⟨h3, h4, h5, -⟩ := hf.roots_parent k hk
        exact ⟨by omega, h4, h5⟩
      · rintro ⟨h3, h4, h5⟩
        by_cases hk : k = n
        · subst hk; exact absurd h5 (hlo' k h1)
        · by_cases hr : k ∈ roots
          · exact hr
          · obtain ⟨p, h6, -, h7, -⟩ := hf.inner_parent k (by omega) h4 hr
            rw [h5] at h7
            have := Option.some.inj h7
            omega
    · rw [hf.children n (by omega) h2 k]
      constructor
      · rintro ⟨h3, h4, h5⟩; exact ⟨by omega, h4, h5⟩
      · rintro ⟨h3, h4, h5⟩
        have hk : k ≠ lo := fun e => hlo' n h1 (e ▸ h5)
        exact ⟨by omega, h4, h5⟩
  sorted n h1 h2 := by
    by_cases hn : n = lo
    · subst hn; rw [hchildren]; exact hf.roots_sorted
    · exact hf.sorted n (by omega) h2
  roots_sorted := List.pairwise_singleton _ _

/-- One row of trees after another below one state is a row of trees. -/
theorem append {parent : Nat} {roots more : List Nat} {lo mid hi : Nat}
    (hf : Forest g (some parent) roots lo mid) (hm : Forest g (some parent) more mid hi)
    (h1 : lo ≤ mid) (h2 : mid ≤ hi) (above : parent < lo) :
    Forest g (some parent) (roots ++ more) lo hi where
  stop n h3 h4 := by
    by_cases hn : n < mid
    · have := hf.stop n h3 hn; omega
    · exact hm.stop n (by omega) h4
  roots_parent n hn := by
    rcases List.mem_append.mp hn with hn | hn
    · obtain ⟨h3, h4, h5, h6⟩ := hf.roots_parent n hn
      exact ⟨h3, by omega, h5, h6⟩
    · obtain ⟨h3, h4, h5, h6⟩ := hm.roots_parent n hn
      refine ⟨by omega, h4, h5, fun a ha1 ha2 => ?_⟩
      by_cases ha : a < mid
      · have := hf.stop a ha1 ha; omega
      · exact h6 a (by omega) ha2
  inner_parent n h3 h4 hn := by
    rw [List.mem_append, not_or] at hn
    by_cases hmid : n < mid
    · exact hf.inner_parent n h3 hmid hn.1
    · obtain ⟨p, h5, h6, h7, h8⟩ := hm.inner_parent n (by omega) h4 hn.2
      refine ⟨p, by omega, h6, h7, fun a ha1 ha2 => ?_⟩
      by_cases ha : a < mid
      · have := hf.stop a ha1 ha; omega
      · exact h8 a (by omega) ha2
  children n h3 h4 k := by
    -- A state of one half is no parent in the other: those are `parent` or of that half.
    have left : ∀ k, lo ≤ k → k < mid → ∀ m, mid ≤ m → (g k).parent ≠ some m := by
      intro k hk1 hk2 m hm' e
      by_cases hr : k ∈ roots
      · rw [(hf.roots_parent k hr).2.2.1] at e; have := Option.some.inj e; omega
      · obtain ⟨p, -, h6, h7, -⟩ := hf.inner_parent k hk1 hk2 hr
        rw [h7] at e; have := Option.some.inj e; omega
    have right : ∀ k, mid ≤ k → k < hi → ∀ m, lo ≤ m → m < mid → (g k).parent ≠ some m := by
      intro k hk1 hk2 m hm1 hm2 e
      by_cases hr : k ∈ more
      · rw [(hm.roots_parent k hr).2.2.1] at e; have := Option.some.inj e; omega
      · obtain ⟨p, h6, -, h7, -⟩ := hm.inner_parent k hk1 hk2 hr
        rw [h7] at e; have := Option.some.inj e; omega
    by_cases hmid : n < mid
    · rw [hf.children n h3 hmid k]
      refine ⟨fun ⟨h5, h6, h7⟩ => ⟨h5, by omega, h7⟩, fun ⟨h5, h6, h7⟩ => ⟨h5, ?_, h7⟩⟩
      by_cases hk : k < mid
      · exact hk
      · exact absurd h7 (right k (by omega) h6 n h3 hmid)
    · rw [hm.children n (by omega) h4 k]
      refine ⟨fun ⟨h5, h6, h7⟩ => ⟨by omega, h6, h7⟩, fun ⟨h5, h6, h7⟩ => ⟨?_, h6, h7⟩⟩
      by_cases hk : k < mid
      · exact absurd h7 (left k h5 hk n (by omega))
      · omega
  sorted n h3 h4 := by
    by_cases hmid : n < mid
    · exact hf.sorted n h3 hmid
    · exact hm.sorted n (by omega) h4
  roots_sorted := by
    refine List.pairwise_append.mpr ⟨hf.roots_sorted, hm.roots_sorted, fun a ha b hb => ?_⟩
    have := (hf.roots_parent a ha).2.1
    have := (hm.roots_parent b hb).1
    omega

end Forest

/-! ## Laying out -/

mutual

theorem length_slotsFrom (parent : Option Nat) (path : String) (depth start : Nat) :
    ∀ d : Definition, (slotsFrom parent path depth start d).length = d.size
  | ⟨_, _, _, _, _, _, states, _, _, _, _, _, _, _⟩ => by
    rw [slotsFrom, Definition.size, List.length_cons,
      length_slotsFromAll start path (depth + 1) (start + 1) states]

theorem length_slotsFromAll (parent : Nat) (path : String) (depth start : Nat) :
    ∀ ds : List Definition,
      (slotsFromAll parent path depth start ds).length = Definition.sizeAll ds
  | [] => rfl
  | d :: rest => by
    rw [slotsFromAll, Definition.sizeAll, List.length_append, length_slotsFrom,
      length_slotsFromAll]

end

mutual

theorem forest_slotsFrom (g : Nat → Slot) (parent : Option Nat) (path : String)
    (depth start : Nat) (above : ∀ p, parent = some p → p < start) :
    ∀ d : Definition, Occupies g start (slotsFrom parent path depth start d) →
      Forest g parent [start] start (start + d.size)
  | ⟨_, _, _, _, _, _, states, _, _, _, _, _, _, _⟩, h => by
    rw [slotsFrom] at h
    obtain ⟨hs, hrest⟩ := occupies_cons h
    have hf := forest_slotsFromAll g start path (depth + 1) (start + 1) (by omega) states hrest
    rw [Definition.size, show start + (Definition.sizeAll states + 1)
      = start + 1 + Definition.sizeAll states by omega]
    refine hf.node (by omega) ?_ ?_ ?_ above
    · rw [hs]
    · rw [hs]
    · rw [hs]; show start + _ + 1 = _; omega

theorem forest_slotsFromAll (g : Nat → Slot) (parent : Nat) (path : String)
    (depth start : Nat) (above : parent < start) :
    ∀ ds : List Definition, Occupies g start (slotsFromAll parent path depth start ds) →
      Forest g (some parent) (startsFrom start ds) start (start + Definition.sizeAll ds)
  | [], _ => Forest.empty _ _
  | d :: rest, h => by
    rw [slotsFromAll] at h
    obtain ⟨hd, hrest⟩ := occupies_append h
    rw [length_slotsFrom] at hrest
    have hf := forest_slotsFrom g (some parent) (path ++ "." ++ d.key) depth start
      (fun p hp => by cases hp; exact above) d hd
    have hm := forest_slotsFromAll g parent path depth (start + d.size) (by omega) rest hrest
    rw [startsFrom, Definition.sizeAll, ← Nat.add_assoc]
    exact hf.append hm (by omega) (by omega) above

end

/-! ## The chart of a layout -/

namespace Layout

theorem size_ofDefinition (d : Definition) : (ofDefinition d).slots.size = d.size := by
  simp [ofDefinition, length_slotsFrom]

theorem occupies_ofDefinition (d : Definition) :
    Occupies (ofDefinition d).slot 0 (slotsFrom none d.key 0 0 d) := fun i s hs => by
  obtain ⟨hi, rfl⟩ := List.getElem?_eq_some_iff.mp hs
  simp [slot, ofDefinition, hi]

theorem forest_ofDefinition (d : Definition) :
    Forest (ofDefinition d).slot none [0] 0 (ofDefinition d).slots.size := by
  rw [size_ofDefinition, ← Nat.zero_add d.size]
  exact forest_slotsFrom _ none d.key 0 0 (fun p hp => by cases hp) d (occupies_ofDefinition d)

/-- The number of the first transition of the slot with index `i` of a list, counted from
`first`. -/
def firstTransition (first : Nat) (slots : List Slot) (i : Nat) : Nat :=
  first + ((slots.take i).flatMap Slot.declared).length

theorem firstTransition_zero (first : Nat) (slots : List Slot) :
    firstTransition first slots 0 = first := by simp [firstTransition]

theorem firstTransition_succ (first : Nat) (s : Slot) (slots : List Slot) (i : Nat) :
    firstTransition first (s :: slots) (i + 1)
      = firstTransition (first + s.declared.length) slots i := by
  simp [firstTransition, Nat.add_assoc]

variable (l : Layout)

theorem getElem?_nodesFrom (slots : List Slot) :
    ∀ (n first i : Nat), (l.nodesFrom n first slots)[i]?
      = slots[i]?.map fun _ => l.node (n + i) (firstTransition first slots i) := by
  induction slots with
  | nil => intro n first i; simp [nodesFrom]
  | cons s slots ih =>
    intro n first i
    cases i with
    | zero => simp [nodesFrom, firstTransition_zero]
    | succ i =>
      rw [nodesFrom, List.getElem?_cons_succ, ih, List.getElem?_cons_succ, firstTransition_succ,
        show n + 1 + i = n + (i + 1) by omega]

theorem getElem?_transitionsFrom (slots : List Slot) :
    ∀ (n first i : Nat) (s : Slot), slots[i]? = some s →
      ∀ (j : Nat) (t : Option String × TransitionDef), s.declared[j]? = some t →
        (l.transitionsFrom n slots)[firstTransition first slots i - first + j]?
          = some (l.transition (n + i) t.1 t.2) := by
  induction slots with
  | nil => intro n first i s hs; simp at hs
  | cons s slots ih =>
    intro n first i s' hs j t ht
    rw [transitionsFrom]
    cases i with
    | zero =>
      simp only [List.getElem?_cons_zero, Option.some.injEq] at hs; subst hs
      rw [firstTransition_zero, Nat.sub_self, Nat.zero_add,
        List.getElem?_append_left (by simpa using (List.getElem?_eq_some_iff.mp ht).1)]
      simp [ht]
    | succ i =>
      have hi := ih (n + 1) 0 i s' (by simpa using hs) j t ht
      have hlen : firstTransition first (s :: slots) (i + 1) - first + j
          = (s.declared.map fun t => l.transition n t.1 t.2).length
            + (firstTransition 0 slots i - 0 + j) := by
        simp [firstTransition]; omega
      rw [hlen, List.getElem?_append_right (by omega), Nat.add_sub_cancel_left, hi]
      rw [show n + 1 + i = n + (i + 1) by omega]

theorem length_nodesFrom (slots : List Slot) :
    ∀ n first, (l.nodesFrom n first slots).length = slots.length := by
  induction slots with
  | nil => intro n first; rfl
  | cons s slots ih => intro n first; rw [nodesFrom, List.length_cons, ih, List.length_cons]

theorem size_chart : l.chart.size = l.slots.size := by
  simp [chart, Chart.size, length_nodesFrom]

theorem node_chart {n : Nat} (hn : n < l.slots.size) :
    l.chart.node n = l.node n (firstTransition 0 l.slots.toList n) := by
  have h := getElem?_nodesFrom l l.slots.toList 0 0 n
  rw [List.getElem?_eq_getElem (l := l.slots.toList) (by simpa using hn), Option.map_some,
    Nat.zero_add] at h
  simp [chart, Chart.node, Array.getD_eq_getD_getElem?, h]

theorem node_cases (n : Nat) : l.chart.node n = .absent ∨
    n < l.slots.size ∧ l.chart.node n = l.node n (firstTransition 0 l.slots.toList n) := by
  by_cases hn : n < l.slots.size
  · exact .inr ⟨hn, l.node_chart hn⟩
  · exact .inl (Chart.node_of_size_le (by rw [size_chart]; omega))

/-- The chart of every definition is a tree. -/
theorem isTree_chart (d : Definition) : (ofDefinition d).chart.IsTree := by
  have hf := forest_ofDefinition d
  have hsize := size_chart (ofDefinition d)
  have hpos : 0 < (ofDefinition d).slots.size := (hf.roots_parent 0 (by simp)).2.1
  have hparent : ∀ {n p}, ((ofDefinition d).chart.node n).parent = some p →
      n < (ofDefinition d).slots.size ∧ ((ofDefinition d).slot n).parent = some p := by
    intro n p hp
    have hn := hsize ▸ Chart.lt_size_of_parent hp
    rw [node_chart _ hn] at hp
    exact ⟨hn, hp⟩
  have hinner : ∀ {n p}, n < (ofDefinition d).slots.size → ((ofDefinition d).slot n).parent = some p →
      p < n ∧ ∀ a, a < n → (n < ((ofDefinition d).slot a).stop ↔
        a = p ∨ (a < p ∧ p < ((ofDefinition d).slot a).stop)) := by
    intro n p hn hp
    have hr : n ∉ [0] := fun hr => by
      rw [(hf.roots_parent n hr).2.2.1] at hp; cases hp
    obtain ⟨q, -, h1, h2, h3⟩ := hf.inner_parent n (Nat.zero_le _) hn hr
    rw [hp] at h2
    cases h2
    exact ⟨h1, fun a ha => h3 a (Nat.zero_le _) ha⟩
  exact {
    size_pos := by rw [hsize]; exact hpos
    parent_root := by
      rw [show Chart.root = 0 from rfl, node_chart _ hpos]
      exact (hf.roots_parent 0 (by simp)).2.2.1
    exists_parent := by
      intro n hn hne
      rw [hsize] at hn
      obtain ⟨p, -, -, hp, -⟩ :=
        hf.inner_parent n (Nat.zero_le _) hn (by simpa [Chart.root] using hne)
      exact ⟨p, by rw [node_chart _ hn]; exact hp⟩
    parent_lt := by
      intro n p hp
      obtain ⟨hn, hp⟩ := hparent hp
      exact (hinner hn hp).1
    isDescendant_parent := by
      intro n p a hp
      obtain ⟨hn, hp⟩ := hparent hp
      obtain ⟨hlt, ha⟩ := hinner hn hp
      rw [Chart.isDescendant_iff, Chart.isDescendant_iff]
      by_cases hsa : a < (ofDefinition d).slots.size
      · rw [node_chart _ hsa]
        have := ha a
        simp only [node]
        omega
      · rw [Chart.node_of_size_le (by omega)]
        simp only [Node.absent]
        omega
    mem_children := by
      intro n k
      by_cases hn : n < (ofDefinition d).slots.size
      · rw [node_chart _ hn]
        refine (hf.children n (Nat.zero_le _) hn k).trans ⟨?_, ?_⟩
        · rintro ⟨-, hk, hp⟩
          rw [node_chart _ hk]; exact hp
        · intro hp
          obtain ⟨hk, hp⟩ := hparent hp
          exact ⟨Nat.zero_le _, hk, hp⟩
      · rw [Chart.node_of_size_le (by omega)]
        refine ⟨fun hk => absurd hk List.not_mem_nil, fun hp => ?_⟩
        obtain ⟨hk, hp⟩ := hparent hp
        exact absurd (hinner hk hp).1 (by omega)
    children_sorted := by
      intro n
      rcases node_cases (ofDefinition d) n with e | ⟨hn, e⟩ <;> rw [e]
      · exact .nil
      · exact hf.sorted n (Nat.zero_le _) hn
    lt_stop := by
      intro n hn
      rw [hsize] at hn
      rw [node_chart _ hn]; exact (hf.stop n (Nat.zero_le _) hn).1
    stop_le := by
      intro n
      rcases node_cases (ofDefinition d) n with e | ⟨hn, e⟩ <;> rw [e]
      · exact Nat.zero_le _
      · rw [hsize]; exact (hf.stop n (Nat.zero_le _) hn).2 }

end Layout

end Statechart
