import Statechart.Proofs.Chart.Accepted
import Statechart.Selection

/-!
# What is selected

Every selected transition was picked by an active leaf at or inside its source, and no two of
them leave a common active state. The leaf that picked a transition is inside the domain of
the transition, so the domains of two selected transitions cannot contain each other:
otherwise the inner leaf would be left by both.

* `domain_spec`: a domain contains the source and the targets.
* `selected_of_select`: what `Registry.select` answers is picked and apart.
-/
namespace Statechart

namespace Chart

/-- Two transitions whose domains do not contain each other. -/
def Apart (c : Chart) (s t : Nat) : Prop :=
  ∀ a b, c.domain s = some a → c.domain t = some b → ¬ c.Within a b ∧ ¬ c.Within b a

/-- A set of transitions that can be taken together in a configuration. -/
structure Selected (c : Chart) (configuration : NodeSet) (transitions : List Nat) : Prop where
  picked : ∀ t ∈ transitions, ∃ leaf ∈ configuration,
    (c.node leaf).isLeaf = true ∧ c.Within leaf (c.transition t).source
  apart : transitions.Pairwise c.Apart

/-! ## Domains -/

/-- The least common compound ancestor contains its first state, is compound or the root, and
contains all the others unless it is the root. -/
theorem commonCompound_spec {c : Chart} (h : c.IsTree) {n : Nat} (rest : List Nat)
    (hn : n < c.size) :
    c.Within n (c.commonCompound (n :: rest)) ∧
      ((c.node (c.commonCompound (n :: rest))).isCompound = true ∧
          (∀ m ∈ rest, c.isDescendant m (c.commonCompound (n :: rest)) = true) ∨
        c.commonCompound (n :: rest) = root) := by
  dsimp only [commonCompound]
  cases hf : (c.ancestors n).find? fun a =>
      (c.node a).isCompound && rest.all fun n => c.isDescendant n a with
  | none => exact ⟨h.within_root hn, .inr rfl⟩
  | some a =>
    have hp := List.find?_some hf
    simp only [Bool.and_eq_true, List.all_eq_true] at hp
    exact ⟨.inr ((mem_ancestors h).mp (List.mem_of_find?_eq_some hf)), .inl hp⟩

/-- A domain contains the source and the targets, and is compound or the root. -/
theorem domain_spec {c : Chart} (h : c.IsTree) {t d : Nat} (hd : c.domain t = some d)
    (hs : (c.transition t).source < c.size) (ht : ∀ n ∈ (c.transition t).targets, n < c.size) :
    c.Within (c.transition t).source d ∧ ((c.node d).isCompound = true ∨ d = root) ∧
      ∀ n ∈ (c.transition t).targets, c.isDescendant n d = true ∨ n = root ∧ d = root := by
  unfold domain at hd
  dsimp only at hd
  split at hd
  · cases hd
  · split at hd
    · rename_i hi
      cases hd
      simp only [isInternal, Bool.and_eq_true, List.all_eq_true] at hi
      exact ⟨.refl _, .inl hi.1.2, fun n hn => .inl (hi.2 n hn)⟩
    · cases hd
      obtain ⟨hw, ⟨hc, hall⟩ | hr⟩ := commonCompound_spec h (c.transition t).targets hs
      · exact ⟨hw, .inl hc, fun n hn => .inl (hall n hn)⟩
      · refine ⟨hw, .inr hr, fun n hn => ?_⟩
        rw [hr]
        by_cases hz : n = root
        · exact .inr ⟨hz, rfl⟩
        · exact .inl (h.isDescendant_root.mpr ⟨ht n hn, hz⟩)

theorem lt_of_domain {c : Chart} {t d : Nat} (hd : c.domain t = some d) :
    t < c.transitions.size := by
  by_cases ht : t < c.transitions.size
  · exact ht
  · have habsent : c.transition t = .absent := by
      unfold transition Array.getD
      rw [dif_neg ht]
    unfold domain at hd
    simp [habsent, Transition.absent, Transition.isTargetless] at hd

theorem mem_exitSet {c : Chart} {configuration : NodeSet} {ts : List Nat} {n : Nat} :
    n ∈ c.exitSet configuration ts ↔
      n ∈ configuration ∧ ∃ t ∈ ts, ∃ d, c.domain t = some d ∧ c.isDescendant n d = true := by
  have hx : ∀ t, c.exits t n = true ↔ ∃ d, c.domain t = some d ∧ c.isDescendant n d = true := by
    intro t
    unfold exits
    cases c.domain t <;> simp
  simp [exitSet, hx]

section Leaves

variable {names : Names} {c : Chart} (h : c.Accepted names)
include h

theorem Accepted.not_isDescendant_leaf {n leaf : Nat} (hl : (c.node leaf).isLeaf = true) :
    c.isDescendant n leaf ≠ true := by
  intro hd
  obtain ⟨k, hk, -⟩ := h.exists_child hd
  have hnil : (c.node leaf).children = [] :=
    h.children_eq_nil (Node.not_inner_of_leaf hl).1 (Node.not_inner_of_leaf hl).2
  have := h.mem_children.mpr hk
  rw [hnil] at this
  exact absurd this List.not_mem_nil

theorem Accepted.not_isDescendant_history {n k : Nat} (hk : (c.node k).isHistory = true) :
    c.isDescendant n k ≠ true := by
  intro hd
  obtain ⟨l, hl, -⟩ := h.exists_child hd
  have hnil : (c.node k).children = [] :=
    h.children_eq_nil (Node.not_inner_of_history hk).1 (Node.not_inner_of_history hk).2
  have := h.mem_children.mpr hl
  rw [hnil] at this
  exact absurd this List.not_mem_nil

/-- The leaf that picks a transition is inside its domain, unless it is the whole chart. -/
theorem Accepted.leaf_in_domain {t leaf d : Nat} (hleaf : leaf < c.size)
    (hl : (c.node leaf).isLeaf = true) (hw : c.Within leaf (c.transition t).source)
    (hd : c.domain t = some d) : c.isDescendant leaf d = true ∨ leaf = root := by
  have hs : (c.transition t).source < c.size := by
    rcases hw with e | hw
    · rw [← e]; exact hleaf
    · exact h.lt_size_right hw
  obtain ⟨hsd, hc, -⟩ := domain_spec h.toIsTree hd hs fun n hn => h.target_lt hn
  rcases h.within_trans hw hsd with rfl | hdesc
  · refine .inr ?_
    rcases hc with hc | hr
    · rw [(Node.not_inner_of_leaf hl).1] at hc; cases hc
    · exact hr
  · exact .inl hdesc

/-- Transitions without a common exit have domains that do not contain each other. -/
theorem Accepted.apart_of_not_conflict {configuration : NodeSet} {s t leaf other : Nat}
    (hc : c.conflict configuration s t = false) (hleaf : leaf ∈ configuration)
    (hother : other ∈ configuration)
    (hs : ∀ d, c.domain s = some d → c.isDescendant leaf d = true)
    (ht : ∀ d, c.domain t = some d → c.isDescendant other d = true) : c.Apart s t := by
  intro a b ha hb
  simp only [conflict, Bool.not_eq_false', NodeSet.disjoint_iff] at hc
  constructor
  · intro hab
    refine hc leaf ?_ ?_ <;> rw [mem_exitSet]
    · exact ⟨hleaf, s, by simp, a, ha, hs a ha⟩
    · exact ⟨hleaf, t, by simp, b, hb, h.isDescendant_within (hs a ha) hab⟩
  · intro hba
    refine hc other ?_ ?_ <;> rw [mem_exitSet]
    · exact ⟨hother, s, by simp, a, ha, h.isDescendant_within (ht b hb) hba⟩
    · exact ⟨hother, t, by simp, b, hb, ht b hb⟩

end Leaves

/-! ## Conflicts -/

theorem settle_sublist (c : Chart) (configuration : NodeSet) (kept : List Nat) (t : Nat) :
    (c.settle configuration kept t).Sublist (kept ++ [t]) := by
  unfold settle
  dsimp only
  split
  · exact List.filter_sublist.append_right _
  · exact List.sublist_append_left _ _

theorem settle_pairwise {c : Chart} {configuration : NodeSet} {kept : List Nat} {t : Nat}
    (h : kept.Pairwise fun s t => c.conflict configuration t s = false) :
    (c.settle configuration kept t).Pairwise fun s t => c.conflict configuration t s = false := by
  unfold settle
  dsimp only
  split
  · refine List.pairwise_append.mpr ⟨h.filter _, List.pairwise_singleton _ _, fun a ha b hb => ?_⟩
    rw [List.mem_singleton.mp hb]
    simpa using (List.mem_filter.mp ha).2
  · exact h

theorem withoutConflicts_pairwise (c : Chart) (configuration : NodeSet) (picks : List Nat) :
    (c.withoutConflicts configuration picks).Pairwise fun s t =>
      c.conflict configuration t s = false := by
  have go : ∀ (picks kept : List Nat),
      kept.Pairwise (fun s t => c.conflict configuration t s = false) →
      (picks.foldl (c.settle configuration) kept).Pairwise fun s t =>
        c.conflict configuration t s = false := by
    intro picks
    induction picks with
    | nil => exact fun _ h => h
    | cons t rest ih => exact fun kept h => ih _ (settle_pairwise h)
  exact go picks [] .nil

/-- The picks that are left are picks, in their order. -/
theorem withoutConflicts_sublist (c : Chart) (configuration : NodeSet) (picks : List Nat) :
    (c.withoutConflicts configuration picks).Sublist picks := by
  have go : ∀ (picks kept : List Nat),
      (picks.foldl (c.settle configuration) kept).Sublist (kept ++ picks) := by
    intro picks
    induction picks with
    | nil => intro kept; simp
    | cons t rest ih =>
      intro kept
      rw [List.foldl_cons]
      have := (ih (c.settle configuration kept t)).trans
        ((settle_sublist c configuration kept t).append_right rest)
      simpa using this
  exact go picks []

/-- A leaf only looks at what it and the states around it offer. -/
theorem Accepted.within_source {names : Names} {c : Chart} (h : c.Accepted names)
    {trigger : Trigger} {event : Event} {leaf t : Nat}
    (ht : t ∈ c.candidates trigger event leaf) : c.Within leaf (c.transition t).source := by
  obtain ⟨n, hn, hoff⟩ := List.mem_flatMap.mp ht
  have hsource : (c.transition t).source = n := by
    cases trigger with
    | event => exact h.source_of_on hoff
    | eventless => exact h.source_of_always hoff
  rw [hsource]
  rcases List.mem_cons.mp hn with rfl | hn
  · exact .refl _
  · exact .inr ((mem_ancestors h.toIsTree).mp hn)

theorem Accepted.activeLeaves_of_leaf {names : Names} {c : Chart} (h : c.Accepted names)
    (hroot : (c.node root).isLeaf = true) {configuration : NodeSet}
    (hin : ∀ n ∈ configuration, n < c.size) : (c.activeLeaves configuration).length ≤ 1 := by
  have hall : ∀ n ∈ c.activeLeaves configuration, n = root := by
    intro n hn
    rcases h.within_root (hin n (List.mem_filter.mp hn).1) with e | hd
    · exact e
    · exact absurd hd (h.not_isDescendant_leaf hroot)
  have hnodup : (c.activeLeaves configuration).Nodup :=
    (configuration.sorted.imp Nat.ne_of_lt).filter _
  match hl : c.activeLeaves configuration with
  | [] | [_] => simp
  | a :: b :: rest =>
    rw [hl] at hnodup hall
    rw [hall a (by simp), hall b (by simp)] at hnodup
    simp at hnodup

end Chart

/-! ## Picks -/

theorem eraseDups_sublist (l : List Nat) : l.eraseDups.Sublist l := by
  induction hn : l.length using Nat.strongRecOn generalizing l with
  | ind n ih =>
    cases l with
    | nil => simp
    | cons a rest =>
      rw [List.eraseDups_cons]
      have hlen := List.length_filter_le (fun b => !b == a) rest
      exact ((ih _ (by simp at hn; omega) _ rfl).trans List.filter_sublist).cons_cons a

/-- A sequence gives a result exactly when both of its parts do. -/
theorem bind_ok {ε α β : Type} {x : Except ε α} {f : α → Except ε β} {b : β} :
    x >>= f = .ok b ↔ ∃ a, x = .ok a ∧ f a = .ok b := by
  cases x <;> simp [bind, Except.bind]

theorem pure_ok {ε α : Type} {a b : α} : (pure a : Except ε α) = .ok b ↔ a = b := by
  simp [pure, Except.pure]

theorem map_ok {ε α β : Type} {f : α → β} {x : Except ε α} {b : β} :
    x.map f = .ok b ↔ ∃ a, x = .ok a ∧ f a = b := by
  cases x <;> simp [Except.map]

theorem ok_of_isOk {ε α : Type} {x : Except ε α} (a : α) (h : x.isOk = true) :
    x = .ok (x.toOption.getD a) := by
  cases x with
  | error e => cases h
  | ok b => rfl

theorem exists_ok_of_any {ε α : Type} {x : Except ε α} {test : α → Bool}
    (h : x.toOption.any test = true) : ∃ a, x = .ok a ∧ test a = true := by
  cases x with
  | error e => cases h
  | ok a => exact ⟨a, rfl, h⟩

theorem mem_of_mapM_ok {α β ε : Type} {f : α → Except ε β} :
    ∀ {l : List α} {r : List β}, l.mapM f = .ok r →
      r.length = l.length ∧ ∀ b ∈ r, ∃ a ∈ l, f a = .ok b
  | [], r, h => by
    rw [List.mapM_nil, pure_ok] at h
    subst h; simp
  | a :: l, r, h => by
    simp only [List.mapM_cons, bind_ok, pure_ok] at h
    obtain ⟨b, ha, bs, hl, rfl⟩ := h
    obtain ⟨h1, h2⟩ := mem_of_mapM_ok hl
    refine ⟨by simp [h1], fun x hx => ?_⟩
    rcases List.mem_cons.mp hx with rfl | hx
    · exact ⟨a, by simp, ha⟩
    · obtain ⟨y, hy, e⟩ := h2 x hx
      exact ⟨y, by simp [hy], e⟩

namespace Registry

variable {C E A : Type} {r : Registry C E A} {c : Chart} {context : C} {event : Event}

theorem mem_of_firstPermitted {t : Nat} :
    ∀ {l : List Nat}, r.firstPermitted c context event l = .ok (some t) → t ∈ l
  | [], h => by cases h
  | s :: rest, h => by
    simp only [firstPermitted, bind_ok] at h
    obtain ⟨passes, -, h⟩ := h
    cases passes with
    | true => cases h; exact List.mem_cons_self
    | false => exact List.mem_cons_of_mem _ (mem_of_firstPermitted h)

variable {configuration : NodeSet} {trigger : Trigger} {ts : List Nat}

theorem of_picks (h : r.picks c configuration context event trigger = .ok ts) :
    ts.length ≤ (c.activeLeaves configuration).length ∧
      ∀ t ∈ ts, ∃ leaf ∈ c.activeLeaves configuration, t ∈ c.candidates trigger event leaf := by
  simp only [picks, bind_ok, pure_ok] at h
  obtain ⟨rs, hm, rfl⟩ := h
  obtain ⟨hlen, hmem⟩ := mem_of_mapM_ok hm
  refine ⟨?_, fun t ht => ?_⟩
  · calc (rs.filterMap id).eraseDups.length
        ≤ (rs.filterMap id).length := (eraseDups_sublist _).length_le
      _ ≤ rs.length := List.length_filterMap_le _ _
      _ = (c.activeLeaves configuration).length := hlen
  · obtain ⟨o, ho, e⟩ := List.mem_filterMap.mp (List.mem_eraseDups.mp ht)
    obtain ⟨leaf, hleaf, hf⟩ := hmem o ho
    subst e
    exact ⟨leaf, hleaf, mem_of_firstPermitted hf⟩

/-- What is selected in a set of states of the chart was picked by its leaves and is apart. -/
theorem selected_of_select {names : Names} (hc : c.Accepted names)
    (hin : ∀ n ∈ configuration, n < c.size)
    (h : r.select c configuration context event trigger = .ok ts) :
    c.Selected configuration ts := by
  simp only [select, bind_ok, pure_ok] at h
  obtain ⟨picks, hp, rfl⟩ := h
  obtain ⟨hlen, hpick⟩ := of_picks hp
  have hsub := Chart.withoutConflicts_sublist c configuration picks
  have hpicked : ∀ t ∈ c.withoutConflicts configuration picks, ∃ leaf ∈ configuration,
      (c.node leaf).isLeaf = true ∧ c.Within leaf (c.transition t).source := by
    intro t ht
    obtain ⟨leaf, hleaf, hcand⟩ := hpick t (hsub.subset ht)
    obtain ⟨hmem, hl⟩ := List.mem_filter.mp hleaf
    exact ⟨leaf, hmem, hl, hc.within_source hcand⟩
  refine ⟨hpicked, ?_⟩
  by_cases hroot : (c.node Chart.root).isLeaf = true
  · -- The root is all there is, so there is at most one leaf and one pick.
    have hone := hc.activeLeaves_of_leaf hroot hin
    have hshort := hsub.length_le
    match hw : c.withoutConflicts configuration picks with
    | [] => exact .nil
    | [_] => exact List.pairwise_singleton _ _
    | _ :: _ :: _ => rw [hw] at hshort; simp at hshort; omega
  · have hinside : ∀ t ∈ c.withoutConflicts configuration picks, ∃ leaf ∈ configuration,
        ∀ d, c.domain t = some d → c.isDescendant leaf d = true := by
      intro t ht
      obtain ⟨leaf, hmem, hl, hw⟩ := hpicked t ht
      refine ⟨leaf, hmem, fun d hd => ?_⟩
      rcases hc.leaf_in_domain (hin leaf hmem) hl hw hd with hdesc | rfl
      · exact hdesc
      · exact absurd hl hroot
    refine (Chart.withoutConflicts_pairwise c configuration picks).imp_of_mem ?_
    intro s t hs ht hst
    obtain ⟨leaf, hleaf, h1⟩ := hinside s hs
    obtain ⟨other, hother, h2⟩ := hinside t ht
    intro a b ha hb
    exact (hc.apart_of_not_conflict hst hother hleaf h2 h1 b a hb ha).symm

end Registry

end Statechart
