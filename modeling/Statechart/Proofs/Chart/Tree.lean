import Statechart.Chart.Basic

/-!
# Charts as trees

`IsTree` says that parent links, child lists and subtree ranges of a chart describe one tree
with the root at number 0. Everything else about containment follows from its local law
`isDescendant_parent`: a state is inside `a` exactly when its parent is `a` or inside `a`.

* `mem_ancestors`: the states met on the way up are those that contain the state.
* `IsTree.trans`, `IsTree.comparable`: containment is transitive, and two states that
  contain a third are one inside the other.
* `IsTree.exists_child`, `IsTree.child_unique`: below a state that contains `n` there is
  exactly one child towards `n`.
* `mem_ancestorsUntil`: the states strictly between a state and one that contains it.
-/
namespace Statechart

/-! ## Kinds -/

namespace Node

variable {n : Node}

theorem not_parallel_of_compound (h : n.isCompound = true) : n.isParallel = false := by
  unfold isCompound at h
  unfold isParallel
  rw [beq_iff_eq.mp h]; rfl

theorem not_inner_of_leaf (h : n.isLeaf = true) : n.isCompound = false ∧ n.isParallel = false := by
  unfold isLeaf at h
  unfold isCompound isParallel
  cases hk : n.kind <;> simp_all [Kind.isLeaf]

theorem not_inner_of_history (h : n.isHistory = true) :
    n.isCompound = false ∧ n.isParallel = false := by
  unfold isHistory at h
  unfold isCompound isParallel
  rw [beq_iff_eq.mp h]; exact ⟨rfl, rfl⟩

theorem not_history (h : n.isFinal = true ∨ n.isCompound = true ∨ n.isParallel = true) :
    n.isHistory = false := by
  unfold isFinal isCompound isParallel at h
  unfold isHistory
  cases hk : n.kind <;> simp_all

/-- A state that is active is a leaf, compound or parallel. -/
theorem kind_cases (h : n.isHistory = false) :
    n.isLeaf = true ∨ n.isCompound = true ∨ n.isParallel = true := by
  unfold isHistory at h
  unfold isLeaf isCompound isParallel
  cases hk : n.kind <;> simp_all [Kind.isLeaf]

end Node

namespace Chart

variable {c : Chart}

/-- Parent links, child lists and subtree ranges describe one tree with the root at 0. -/
structure IsTree (c : Chart) : Prop where
  size_pos : 0 < c.size
  parent_root : (c.node root).parent = none
  exists_parent : ∀ {n}, n < c.size → n ≠ root → ∃ p, (c.node n).parent = some p
  parent_lt : ∀ {n p}, (c.node n).parent = some p → p < n
  isDescendant_parent : ∀ {n p a}, (c.node n).parent = some p →
    (c.isDescendant n a = true ↔ a = p ∨ c.isDescendant p a = true)
  mem_children : ∀ {n k}, k ∈ (c.node n).children ↔ (c.node k).parent = some n
  children_sorted : ∀ n, (c.node n).children.Pairwise (· < ·)
  lt_stop : ∀ {n}, n < c.size → n < (c.node n).stop
  stop_le : ∀ n, (c.node n).stop ≤ c.size

/-- `n` is `a` or inside `a`. -/
def Within (c : Chart) (n a : Nat) : Prop := n = a ∨ c.isDescendant n a = true

theorem node_of_size_le {n : Nat} (h : c.size ≤ n) : c.node n = .absent := by
  unfold node Array.getD
  rw [dif_neg (by unfold size at h; omega)]

theorem lt_size_of_parent {n p : Nat} (h : (c.node n).parent = some p) : n < c.size := by
  by_cases hn : n < c.size
  · exact hn
  · rw [node_of_size_le (by omega)] at h; cases h

theorem isDescendant_iff {n a : Nat} :
    c.isDescendant n a = true ↔ a < n ∧ n < (c.node a).stop := by
  simp [isDescendant]

theorem not_isDescendant_self {n : Nat} : c.isDescendant n n ≠ true := by
  rw [ne_eq, isDescendant_iff]; omega

theorem Within.refl (n : Nat) : c.Within n n := .inl rfl

theorem Within.antisymm {a b : Nat} (hab : c.Within a b) (hba : c.Within b a) : a = b := by
  rcases hab with rfl | hab
  · rfl
  · rcases hba with rfl | hba
    · rfl
    · have := (isDescendant_iff.mp hab).1
      have := (isDescendant_iff.mp hba).1
      omega

/-! ## The way up -/

theorem climb_of_le (h : c.IsTree) :
    ∀ {n steps : Nat}, n ≤ steps → c.climb steps n = c.climb n n := by
  intro n
  induction n using Nat.strongRecOn with
  | ind n ih =>
    intro steps hs
    cases hp : (c.node n).parent with
    | none => cases n <;> cases steps <;> simp [climb, hp]
    | some p =>
      have hlt := h.parent_lt hp
      obtain ⟨m, rfl⟩ : ∃ m, n = m + 1 := ⟨n - 1, by omega⟩
      obtain ⟨s, rfl⟩ : ∃ s, steps = s + 1 := ⟨steps - 1, by omega⟩
      simp only [climb, hp]
      rw [ih p hlt (show p ≤ s by omega), ih p hlt (show p ≤ m by omega)]

theorem ancestors_of_none {n : Nat} (hp : (c.node n).parent = none) : c.ancestors n = [] := by
  unfold ancestors
  cases n <;> simp [climb, hp]

theorem ancestors_of_some (h : c.IsTree) {n p : Nat} (hp : (c.node n).parent = some p) :
    c.ancestors n = p :: c.ancestors p := by
  have hlt := h.parent_lt hp
  obtain ⟨m, rfl⟩ : ∃ m, n = m + 1 := ⟨n - 1, by omega⟩
  unfold ancestors
  rw [climb, hp]
  simp only [List.cons.injEq, true_and]
  exact climb_of_le h (by omega)

namespace IsTree

variable (h : c.IsTree)
include h

theorem root_lt : root < c.size := h.size_pos

theorem parent_lt_size {n p : Nat} (hp : (c.node n).parent = some p) : p < c.size :=
  Nat.lt_trans (h.parent_lt hp) (lt_size_of_parent hp)

theorem isDescendant_of_parent {n p : Nat} (hp : (c.node n).parent = some p) :
    c.isDescendant n p = true :=
  (h.isDescendant_parent hp).mpr (.inl rfl)

theorem lt_size {n a : Nat} (hd : c.isDescendant n a = true) : n < c.size := by
  have := (isDescendant_iff.mp hd).2
  have := h.stop_le a
  omega

theorem lt_size_right {n a : Nat} (hd : c.isDescendant n a = true) : a < c.size :=
  Nat.lt_trans (isDescendant_iff.mp hd).1 (h.lt_size hd)

theorem exists_parent_of_isDescendant {n a : Nat} (hd : c.isDescendant n a = true) :
    ∃ p, (c.node n).parent = some p := by
  refine h.exists_parent (h.lt_size hd) ?_
  have := (isDescendant_iff.mp hd).1
  show n ≠ 0
  omega

theorem not_isDescendant_of_none {n a : Nat} (hp : (c.node n).parent = none) :
    c.isDescendant n a ≠ true := by
  intro hd
  obtain ⟨p, hp'⟩ := h.exists_parent_of_isDescendant hd
  rw [hp] at hp'; cases hp'

theorem not_root_isDescendant (a : Nat) : c.isDescendant root a ≠ true :=
  h.not_isDescendant_of_none h.parent_root

theorem isDescendant_root {n : Nat} : c.isDescendant n root = true ↔ n < c.size ∧ n ≠ root := by
  refine ⟨fun hd => ⟨h.lt_size hd, fun e => h.not_root_isDescendant root (e ▸ hd)⟩, ?_⟩
  rintro ⟨hn, hne⟩
  induction n using Nat.strongRecOn with
  | ind n ih =>
    obtain ⟨p, hp⟩ := h.exists_parent hn hne
    rw [h.isDescendant_parent hp]
    by_cases hr : p = root
    · exact .inl hr.symm
    · exact .inr (ih p (h.parent_lt hp) (h.parent_lt_size hp) hr)

theorem within_root {n : Nat} (hn : n < c.size) : c.Within n root := by
  by_cases hr : n = root
  · exact .inl hr
  · exact .inr (h.isDescendant_root.mpr ⟨hn, hr⟩)

theorem trans {n b a : Nat} (hb : c.isDescendant n b = true) (ha : c.isDescendant b a = true) :
    c.isDescendant n a = true := by
  induction n using Nat.strongRecOn with
  | ind n ih =>
    obtain ⟨p, hp⟩ := h.exists_parent_of_isDescendant hb
    rw [h.isDescendant_parent hp] at hb ⊢
    rcases hb with rfl | hb
    · exact .inr ha
    · exact .inr (ih p (h.parent_lt hp) hb)

/-- Of two states that contain a third, the later one is inside the earlier one. -/
theorem comparable {n a b : Nat} (ha : c.isDescendant n a = true) (hb : c.isDescendant n b = true)
    (hab : a < b) : c.isDescendant b a = true := by
  induction n using Nat.strongRecOn with
  | ind n ih =>
    obtain ⟨p, hp⟩ := h.exists_parent_of_isDescendant ha
    rw [h.isDescendant_parent hp] at ha hb
    rcases ha with rfl | ha
    · rcases hb with rfl | hb
      · exact absurd hab (Nat.lt_irrefl _)
      · exact absurd (isDescendant_iff.mp hb).1 (by omega)
    · rcases hb with rfl | hb
      · exact ha
      · exact ih p (h.parent_lt hp) ha hb

theorem within_isDescendant {n b a : Nat} (hb : c.Within n b) (ha : c.isDescendant b a = true) :
    c.isDescendant n a = true := by
  rcases hb with rfl | hb
  · exact ha
  · exact h.trans hb ha

theorem isDescendant_within {n b a : Nat} (hb : c.isDescendant n b = true) (ha : c.Within b a) :
    c.isDescendant n a = true := by
  rcases ha with rfl | ha
  · exact hb
  · exact h.trans hb ha

theorem within_trans {n b a : Nat} (hb : c.Within n b) (ha : c.Within b a) : c.Within n a := by
  rcases hb with rfl | hb
  · exact ha
  · exact .inr (h.isDescendant_within hb ha)

/-- Two states around a common one are one within the other. -/
theorem within_total {n a b : Nat} (ha : c.Within n a) (hb : c.Within n b) :
    c.Within a b ∨ c.Within b a := by
  rcases ha with rfl | ha
  · exact .inl hb
  · rcases hb with rfl | hb
    · exact .inr (.inr ha)
    · rcases Nat.lt_trichotomy a b with hlt | rfl | hlt
      · exact .inr (.inr (h.comparable ha hb hlt))
      · exact .inl (.refl _)
      · exact .inl (.inr (h.comparable hb ha hlt))

/-! ## Children -/

theorem isDescendant_iff_parent {n p a : Nat} (hp : (c.node n).parent = some p) :
    c.isDescendant n a = true ↔ c.Within p a := by
  rw [h.isDescendant_parent hp]
  exact or_congr_left eq_comm

/-- What holds of a state, and of all children of a state inside it that it holds of, holds of all
states inside. -/
theorem induct_within {a : Nat} {P : Nat → Prop} (top : P a)
    (down : ∀ n p, (c.node n).parent = some p → c.Within p a → P p → P n) :
    ∀ {n : Nat}, c.Within n a → P n := by
  intro n
  induction n using Nat.strongRecOn with
  | ind n ih =>
    rintro (rfl | hd)
    · exact top
    · obtain ⟨p, hp⟩ := h.exists_parent_of_isDescendant hd
      have hpa := (h.isDescendant_iff_parent hp).mp hd
      exact down n p hp hpa (ih p (h.parent_lt hp) hpa)

/-- Towards a state inside `a` there is a child of `a`. -/
theorem exists_child {n a : Nat} (hd : c.isDescendant n a = true) :
    ∃ k, (c.node k).parent = some a ∧ c.Within n k := by
  induction n using Nat.strongRecOn with
  | ind n ih =>
    obtain ⟨p, hp⟩ := h.exists_parent_of_isDescendant hd
    rw [h.isDescendant_parent hp] at hd
    rcases hd with rfl | hd
    · exact ⟨n, hp, .refl n⟩
    · obtain ⟨k, hk, hpk⟩ := ih p (h.parent_lt hp) hd
      exact ⟨k, hk, .inr ((h.isDescendant_iff_parent hp).mpr hpk)⟩

/-- Two children of one state are equal or apart. -/
theorem siblings {a k l : Nat} (hk : (c.node k).parent = some a) (hl : (c.node l).parent = some a)
    (hkl : c.Within k l) : k = l := by
  rcases hkl with rfl | hkl
  · rfl
  · have hal := (h.isDescendant_iff_parent hk).mp hkl
    have hla := h.parent_lt hl
    rcases hal with rfl | hal
    · exact absurd hla (Nat.lt_irrefl _)
    · have := (isDescendant_iff.mp hal).1
      omega

/-- Only one child of a state leads to a state inside it. -/
theorem child_unique {n a k l : Nat} (hk : (c.node k).parent = some a)
    (hl : (c.node l).parent = some a) (hnk : c.Within n k) (hnl : c.Within n l) : k = l := by
  rcases h.within_total hnk hnl with hkl | hlk
  · exact h.siblings hk hl hkl
  · exact (h.siblings hl hk hlk).symm

theorem children_nodup (n : Nat) : (c.node n).children.Nodup :=
  (h.children_sorted n).imp Nat.ne_of_lt

end IsTree

/-! ## Ancestors -/

/-- The states met on the way up are those that contain the state. -/
theorem mem_ancestors (h : c.IsTree) {n a : Nat} :
    a ∈ c.ancestors n ↔ c.isDescendant n a = true := by
  induction n using Nat.strongRecOn with
  | ind n ih =>
    cases hp : (c.node n).parent with
    | none =>
      rw [ancestors_of_none hp]
      exact ⟨fun hm => absurd hm List.not_mem_nil,
        fun hd => absurd hd (h.not_isDescendant_of_none hp)⟩
    | some p =>
      rw [ancestors_of_some h hp, List.mem_cons, ih p (h.parent_lt hp),
        h.isDescendant_parent hp]

/-- The way up leads to smaller numbers. -/
theorem ancestors_descending (h : c.IsTree) (a : Nat) :
    (a :: c.ancestors a).Pairwise (· > ·) := by
  induction a using Nat.strongRecOn with
  | ind a ih =>
    refine List.pairwise_cons.mpr
      ⟨fun x hx => (isDescendant_iff.mp ((mem_ancestors h).mp hx)).1, ?_⟩
    cases hp : (c.node a).parent with
    | none => rw [ancestors_of_none hp]; exact .nil
    | some p => rw [ancestors_of_some h hp]; exact ih p (h.parent_lt hp)

theorem ancestorsUntil_of_none {n : Nat} {d : Option Nat} (hp : (c.node n).parent = none) :
    c.ancestorsUntil n d = [] := by
  unfold ancestorsUntil
  rw [ancestors_of_none hp]; rfl

/-- Right below the bound the way up is empty. -/
theorem ancestorsUntil_of_child (h : c.IsTree) {n d : Nat} (hp : (c.node n).parent = some d) :
    c.ancestorsUntil n (some d) = [] := by
  unfold ancestorsUntil
  rw [ancestors_of_some h hp]
  simp

/-- Further below the bound the way up begins with the parent. -/
theorem ancestorsUntil_of_parent (h : c.IsTree) {n p d : Nat} (hp : (c.node n).parent = some p)
    (hd : p ≠ d) : c.ancestorsUntil n (some d) = p :: c.ancestorsUntil p (some d) := by
  unfold ancestorsUntil
  rw [ancestors_of_some h hp, List.takeWhile_cons_of_pos (by simpa using hd)]

/-- The states strictly between a state and one that contains it. -/
theorem mem_ancestorsUntil (h : c.IsTree) {n d a : Nat} (hd : c.isDescendant n d = true) :
    a ∈ c.ancestorsUntil n (some d) ↔ c.isDescendant n a = true ∧ c.isDescendant a d = true := by
  induction n using Nat.strongRecOn with
  | ind n ih =>
    obtain ⟨p, hp⟩ := h.exists_parent_of_isDescendant hd
    by_cases hpd : p = d
    · subst hpd
      rw [ancestorsUntil_of_child h hp]
      refine ⟨fun hm => absurd hm List.not_mem_nil, fun ⟨hna, had⟩ => ?_⟩
      have hpa := (h.isDescendant_iff_parent hp).mp hna
      exact absurd (h.within_isDescendant hpa had) not_isDescendant_self
    · have hpd' : c.isDescendant p d = true := by
        rcases (h.isDescendant_iff_parent hp).mp hd with e | hpd'
        · exact absurd e hpd
        · exact hpd'
      rw [ancestorsUntil_of_parent h hp hpd, List.mem_cons, ih p (h.parent_lt hp) hpd',
        h.isDescendant_parent hp]
      constructor
      · rintro (rfl | ⟨hpa, had⟩)
        · exact ⟨.inl rfl, hpd'⟩
        · exact ⟨.inr hpa, had⟩
      · rintro ⟨rfl | hpa, had⟩
        · exact .inl rfl
        · exact .inr ⟨hpa, had⟩

/-! ## Regions -/

theorem mem_regions (h : c.IsTree) {n k : Nat} :
    k ∈ c.regions n ↔ (c.node k).parent = some n ∧ (c.node k).isHistory = false := by
  simp [regions, h.mem_children]

/-- Regions are states of the chart, and none is a history state. -/
theorem region_plain (h : c.IsTree) {n r : Nat} (hr : r ∈ c.regions n) :
    r < c.size ∧ (c.node r).isHistory = false :=
  ((mem_regions h).mp hr).imp_left lt_size_of_parent

theorem mem_activeChildren (h : c.IsTree) {n k : Nat} {configuration : NodeSet} :
    k ∈ c.activeChildren n configuration ↔
      (c.node k).parent = some n ∧ k ∈ configuration := by
  simp [activeChildren, h.mem_children]

theorem regions_nodup (h : c.IsTree) (n : Nat) : (c.regions n).Nodup :=
  (h.children_nodup n).filter _

end Chart

end Statechart
