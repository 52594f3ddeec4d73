import Mathlib.Data.List.Pairwise
import Statechart.Proofs.Entry.Targets

/-!
# Legal configurations

A configuration is legal when it could be that of a running chart: the root is active, every
active state has its parent active, exactly one child if it is compound and all its regions
if it is parallel, and no history state is active.

* `legal_initial`: what is entered at the start is legal.
* `Exchange.legal_next`: so is what is left of a legal configuration after the exits of a set
  of transitions, together with the entries of that set.
* `Legal.exists_leaf`, `Legal.orthogonal_leaves`: below every active state there is an active
  leaf, and any two active leaves are orthogonal.
-/
namespace Statechart.Chart

variable {c : Chart}

/-- The configuration could be that of a running chart. -/
structure Legal (c : Chart) (configuration : NodeSet) : Prop where
  lt_size : ∀ n ∈ configuration, n < c.size
  root_mem : root ∈ configuration
  parent_mem : ∀ n ∈ configuration, ∀ p, (c.node n).parent = some p → p ∈ configuration
  not_history : ∀ n ∈ configuration, (c.node n).isHistory = false
  /-- An active compound state has exactly one active child. -/
  child : ∀ n ∈ configuration, (c.node n).isCompound = true →
    ∃ k, c.activeChildren n configuration = [k]
  region : ∀ n ∈ configuration, (c.node n).isParallel = true →
    ∀ r ∈ c.regions n, r ∈ configuration

instance (c : Chart) (configuration : NodeSet) : Decidable (c.Legal configuration) :=
  decidable_of_iff (root ∈ configuration ∧ ∀ n ∈ configuration.toList,
      n < c.size ∧ (∀ p ∈ (c.node n).parent, p ∈ configuration) ∧ (c.node n).isHistory = false ∧
        ((c.node n).isCompound = true → (c.activeChildren n configuration).length = 1) ∧
        ((c.node n).isParallel = true → ∀ r ∈ c.regions n, r ∈ configuration))
    ⟨fun ⟨hroot, hall⟩ =>
      ⟨fun n hn => (hall n hn).1, hroot, fun n hn => (hall n hn).2.1, fun n hn => (hall n hn).2.2.1,
        fun n hn hc => List.length_eq_one_iff.mp ((hall n hn).2.2.2.1 hc),
        fun n hn => (hall n hn).2.2.2.2⟩,
      fun hl => ⟨hl.root_mem, fun n hn => ⟨hl.lt_size n hn, hl.parent_mem n hn, hl.not_history n hn,
        fun hc => List.length_eq_one_iff.mpr (hl.child n hn hc), hl.region n hn⟩⟩⟩

theorem activeChildren_eq_singleton (h : c.IsTree) {configuration : NodeSet} {n k : Nat}
    (hk : k ∈ configuration) (hp : (c.node k).parent = some n)
    (hone : ∀ l ∈ configuration, (c.node l).parent = some n → l = k) :
    c.activeChildren n configuration = [k] := by
  have hmem : k ∈ c.activeChildren n configuration := (mem_activeChildren h).mpr ⟨hp, hk⟩
  have hnd : (c.activeChildren n configuration).Nodup := (h.children_nodup n).filter _
  have hall : ∀ l ∈ c.activeChildren n configuration, l = k := fun l hl =>
    hone l ((mem_activeChildren h).mp hl).2 ((mem_activeChildren h).mp hl).1
  match hl : c.activeChildren n configuration with
  | [] => rw [hl] at hmem; exact absurd hmem List.not_mem_nil
  | [a] => rw [hall a (by rw [hl]; simp)]
  | a :: b :: rest =>
    rw [hl] at hnd hall
    have := (List.nodup_cons.mp hnd).1
    rw [hall a (by simp), hall b (by simp)] at this
    simp at this

theorem mem_of_within_of_parent_mem (h : c.IsTree) {s : NodeSet}
    (hs : ∀ n ∈ s, ∀ p, (c.node n).parent = some p → p ∈ s) :
    ∀ {n a : Nat}, n ∈ s → c.Within n a → a ∈ s := by
  intro n
  induction n using Nat.strongRecOn with
  | ind n ih =>
    intro a hn hw
    rcases hw with rfl | hd
    · exact hn
    · obtain ⟨p, hp⟩ := h.exists_parent_of_isDescendant hd
      exact ih p (h.parent_lt hp) (hs n hn p hp) ((h.isDescendant_iff_parent hp).mp hd)

theorem exists_leaf_of_child (h : c.IsTree) {s : NodeSet}
    (hs : ∀ n ∈ s, (c.node n).isLeaf = false → ∃ k ∈ s, (c.node k).parent = some n) {n : Nat}
    (hn : n ∈ s) : ∃ leaf ∈ s, (c.node leaf).isLeaf = true ∧ c.Within leaf n := by
  -- Children have greater numbers, and there are `c.size` of those.
  induction hm : c.size - n using Nat.strongRecOn generalizing n with
  | ind m ih =>
    cases hl : (c.node n).isLeaf with
    | true => exact ⟨n, hn, hl, .refl n⟩
    | false =>
      obtain ⟨k, hks, hkn⟩ := hs n hn hl
      have := h.parent_lt hkn
      have := lt_size_of_parent hkn
      obtain ⟨leaf, h1, h2, h3⟩ := ih (c.size - k) (by omega) hks rfl
      exact ⟨leaf, h1, h2, h.within_trans h3 (.inr (h.isDescendant_of_parent hkn))⟩

namespace Legal

variable {configuration : NodeSet}

theorem child_unique (h : c.IsTree) (hl : c.Legal configuration) {n k l : Nat}
    (hn : (c.node n).isCompound = true) (hk : k ∈ configuration) (hl' : l ∈ configuration)
    (hkn : (c.node k).parent = some n) (hln : (c.node l).parent = some n) : k = l := by
  obtain ⟨j, hj⟩ := hl.child n (hl.parent_mem k hk n hkn) hn
  have h1 := (mem_activeChildren h).mpr ⟨hkn, hk⟩
  have h2 := (mem_activeChildren h).mpr ⟨hln, hl'⟩
  rw [hj, List.mem_singleton] at h1 h2
  rw [h1, h2]

/-- All states around an active state are active. -/
theorem mem_of_within (h : c.IsTree) (hl : c.Legal configuration) :
    ∀ {n a : Nat}, n ∈ configuration → c.Within n a → a ∈ configuration :=
  mem_of_within_of_parent_mem h hl.parent_mem

theorem exists_child (h : c.IsTree) (we : c.Enterable) (hl : c.Legal configuration) {n : Nat}
    (hn : n ∈ configuration) (hk : (c.node n).isLeaf = false) :
    ∃ k ∈ configuration, (c.node k).parent = some n := by
  rcases Node.kind_cases (hl.not_history n hn) with hleaf | hcomp | hpar
  · rw [hk] at hleaf; cases hleaf
  · obtain ⟨k, hk⟩ := hl.child n hn hcomp
    have hm := (mem_activeChildren h).mp (hk ▸ List.mem_singleton.mpr rfl)
    exact ⟨k, hm.2, hm.1⟩
  · obtain ⟨r, hr⟩ := List.exists_mem_of_ne_nil _ (we.regions_ne_nil n (hl.lt_size n hn) hpar)
    exact ⟨r, hl.region n hn hpar r hr, ((mem_regions h).mp hr).1⟩

/-- At or inside every active state there is an active leaf. -/
theorem exists_leaf (h : c.IsTree) (we : c.Enterable) (hl : c.Legal configuration) {n : Nat}
    (hn : n ∈ configuration) :
    ∃ leaf ∈ configuration, (c.node leaf).isLeaf = true ∧ c.Within leaf n :=
  exists_leaf_of_child h (fun _ hn hk => hl.exists_child h we hn hk) hn

/-- Any two active leaves are orthogonal. -/
theorem orthogonal_leaves {names : Names} (h : c.Accepted names) (hl : c.Legal configuration)
    {a b : Nat} (ha : a ∈ configuration) (hb : b ∈ configuration)
    (hal : (c.node a).isLeaf = true) (hbl : (c.node b).isLeaf = true) (hne : a ≠ b) :
    c.Orthogonal a b := by
  have hna : ¬ c.Within a b := fun hw => hw.elim hne (h.not_isDescendant_leaf hbl)
  have hnb : ¬ c.Within b a := fun hw =>
    hw.elim (fun e => hne e.symm) (h.not_isDescendant_leaf hal)
  unfold Orthogonal
  rw [anchor_of_not_history (hl.not_history a ha), anchor_of_not_history (hl.not_history b hb)]
  refine ⟨hna, hnb, ?_⟩
  obtain ⟨hal', hbl', hleast⟩ := leastCommon_spec h.toIsTree (hl.lt_size a ha) (hl.lt_size b hb)
  generalize c.leastCommon a b = l at hal' hbl' hleast
  have hlc := hl.mem_of_within h.toIsTree ha hal'
  have had : c.isDescendant a l = true := hal'.elim (fun e => absurd (e ▸ hbl') hnb) id
  have hbd : c.isDescendant b l = true := hbl'.elim (fun e => absurd (e ▸ hal') hna) id
  rcases Node.kind_cases (hl.not_history l hlc) with hleaf | hcomp | hpar
  · exact absurd had (h.not_isDescendant_leaf hleaf)
  · -- The one active child of a compound state would contain both as well.
    obtain ⟨k, hk, hak⟩ := h.exists_child had
    obtain ⟨j, hj, hbj⟩ := h.exists_child hbd
    obtain rfl := hl.child_unique h.toIsTree hcomp (hl.mem_of_within h.toIsTree ha hak)
      (hl.mem_of_within h.toIsTree hb hbj) hk hj
    exact absurd (h.within_isDescendant (hleast k hak hbj) (h.isDescendant_of_parent hk))
      not_isDescendant_self
  · exact hpar

end Legal

/-! ## The start -/

/-- The default inside of the root, entered into the empty set, is legal. -/
theorem legal_initial {names : Names} (h : c.Accepted names) (we : c.Enterable)
    (hr : c.Restorable []) {entries : NodeSet} (he : c.initialEntrySet = some entries) :
    c.Legal entries := by
  have hempty : ∀ {x}, x ∉ (∅ : NodeSet) := fun hx => NodeSet.mem_empty.mp hx
  have hc := addInside_complete h we hr.confined _ root h.root_lt (root_not_history h) ∅ entries
    (fun x hx => absurd hx hempty) he
  have hg := addInside_within h hr _ root h.root_lt (root_not_history h) _ _ he
  have hw : ∀ x ∈ entries, c.Within x root := fun x hx =>
    (hg.gained x hx).elim (fun hx => absurd hx hempty) id
  refine ⟨?_, hc.mem, ?_, fun n hn => hc.not_history n hn (hw n hn), ?_,
    fun n hn => hc.region n hn (hw n hn)⟩
  · intro n hn
    rcases hw n hn with rfl | hd
    · exact h.root_lt
    · exact h.lt_size hd
  · intro n hn p hp
    rcases hw n hn with rfl | hd
    · rw [h.parent_root] at hp; cases hp
    · exact hc.parent n hn hd p hp
  · intro n hn hcomp
    obtain ⟨k, hk, hkn⟩ := hc.child n hn (hw n hn) hcomp
    refine ⟨k, activeChildren_eq_singleton h.toIsTree hk hkn fun l hl hln => ?_⟩
    exact (hc.together l hl k hk (hw l hl) (hw k hk)).child_eq h.toIsTree hcomp hln hkn

/-! ## Exits and entries -/

instance : Std.Symm c.Apart := ⟨fun _ _ hst a b ha hb => (hst b a hb ha).symm⟩

/-- `next` is what a set of transitions leaves of a legal configuration, together with
entries that belong to the domains and fill them. -/
structure Exchange (c : Chart) (configuration : NodeSet) (transitions : List Nat)
    (entries next : NodeSet) : Prop where
  legal : c.Legal configuration
  selected : c.Selected configuration transitions
  entered : ∀ x ∈ entries, c.Entered transitions x
  filled : ∀ t ∈ transitions, ∀ d, c.domain t = some d → c.Filled entries d
  mem_next : ∀ x, x ∈ next ↔
    x ∈ configuration ∧ x ∉ c.exitSet configuration transitions ∨ x ∈ entries

theorem Selected.source_lt {names : Names} (h : c.Accepted names) {configuration : NodeSet}
    {transitions : List Nat} (hl : ∀ n ∈ configuration, n < c.size)
    (hsel : c.Selected configuration transitions) :
    ∀ t ∈ transitions, (c.transition t).source < c.size := by
  intro t ht
  obtain ⟨leaf, hleaf, -, hw⟩ := hsel.picked t ht
  rcases hw with e | hd
  · rw [← e]; exact hl leaf hleaf
  · exact h.lt_size_right hd

namespace Exchange

variable {names : Names} (h : c.Accepted names) {configuration next entries : NodeSet}
  {transitions : List Nat} (hx : c.Exchange configuration transitions entries next)
include h hx

theorem domain_stays {t d : Nat} (ht : t ∈ transitions) (hd : c.domain t = some d) :
    d ∈ configuration ∧ d ∉ c.exitSet configuration transitions := by
  have hdom := (domain_spec h.toIsTree hd (hx.selected.source_lt h hx.legal.lt_size t ht)
    fun n hn => h.target_lt hn).1
  obtain ⟨leaf, hleaf, -, hw⟩ := hx.selected.picked t ht
  refine ⟨hx.legal.mem_of_within h.toIsTree hleaf (h.within_trans hw hdom), fun hm => ?_⟩
  obtain ⟨-, u, hu, e, hue, hde⟩ := mem_exitSet.mp hm
  by_cases htu : t = u
  · subst htu; rw [hd] at hue; cases hue
    exact not_isDescendant_self hde
  · exact (hx.selected.apart.forall ht hu htu d e hd hue).1 (.inr hde)

theorem domain_mem {t d : Nat} (ht : t ∈ transitions) (hd : c.domain t = some d) : d ∈ next :=
  (hx.mem_next d).mpr (.inl (hx.domain_stays h ht hd))

theorem root_mem : root ∈ next :=
  (hx.mem_next root).mpr (.inl ⟨hx.legal.root_mem, fun hm => by
    obtain ⟨-, t, -, d, -, hd⟩ := mem_exitSet.mp hm
    exact absurd hd (h.not_root_isDescendant d)⟩)

omit h in
theorem mem_inside {t d x : Nat} (ht : t ∈ transitions) (hd : c.domain t = some d)
    (hxd : c.isDescendant x d = true) : x ∈ next ↔ x ∈ entries := by
  rw [hx.mem_next]
  refine ⟨fun hm => hm.elim (fun ⟨hc, hn⟩ => ?_) id, .inr⟩
  exact absurd (mem_exitSet.mpr ⟨hc, t, ht, d, hd, hxd⟩) hn

omit h in
theorem mem_within {t d x : Nat} (ht : t ∈ transitions) (hd : c.domain t = some d)
    (hw : c.Within x d) (hm : x ∈ next) : x ∈ entries ∨ x = d :=
  hw.elim .inr fun hxd => .inl ((hx.mem_inside ht hd hxd).mp hm)

omit h in
theorem mem_outside {x : Nat}
    (hout : ∀ t ∈ transitions, ∀ d, c.domain t = some d → ¬ c.isDescendant x d = true)
    (hroot : x = root → root ∈ configuration) : x ∈ next ↔ x ∈ configuration := by
  have hnot : x ∉ c.exitSet configuration transitions := fun hm => by
    obtain ⟨-, t, ht, d, hd, hxd⟩ := mem_exitSet.mp hm
    exact hout t ht d hd hxd
  rw [hx.mem_next]
  refine ⟨fun hm => hm.elim And.left fun he => ?_, fun hc => .inl ⟨hc, hnot⟩⟩
  obtain ⟨t, ht, d, hd, hxd | ⟨e, -⟩⟩ := hx.entered x he
  · exact absurd hxd (hout t ht d hd)
  · subst e; exact hroot rfl

theorem within_or (x : Nat) :
    (∃ t ∈ transitions, ∃ d, c.domain t = some d ∧ c.Within x d) ∨
      (x ∈ next ↔ x ∈ configuration) ∧
        ∀ k, (c.node k).parent = some x → (k ∈ next ↔ k ∈ configuration) := by
  by_cases hw : ∃ t ∈ transitions, ∃ d, c.domain t = some d ∧ c.Within x d
  · exact .inl hw
  · have hout : ∀ t ∈ transitions, ∀ d, c.domain t = some d → ¬ c.Within x d :=
      fun t ht d hd hxd => hw ⟨t, ht, d, hd, hxd⟩
    have hroot : root ∈ configuration := hx.legal.root_mem
    refine .inr ⟨hx.mem_outside (fun t ht d hd hxd => hout t ht d hd (.inr hxd)) fun _ => hroot,
      fun k hk => hx.mem_outside (fun t ht d hd hkd => ?_) fun _ => hroot⟩
    exact hout t ht d hd ((h.isDescendant_iff_parent hk).mp hkd)

theorem parent_mem {n p : Nat} (hn : n ∈ next) (hp : (c.node n).parent = some p) :
    p ∈ next := by
  have hkept : n ∈ configuration → n ∉ c.exitSet configuration transitions → p ∈ next := by
    refine fun hc hne => (hx.mem_next p).mpr (.inl ⟨hx.legal.parent_mem n hc p hp, fun hm => ?_⟩)
    obtain ⟨-, t, ht, d, hd, hpd⟩ := mem_exitSet.mp hm
    exact hne (mem_exitSet.mpr ⟨hc, t, ht, d, hd, h.trans (h.isDescendant_of_parent hp) hpd⟩)
  rcases (hx.mem_next n).mp hn with ⟨hc, hne⟩ | he
  · exact hkept hc hne
  · obtain ⟨t, ht, d, hd, hnd | ⟨rfl, -⟩⟩ := hx.entered n he
    · rcases (hx.filled t ht d hd).parent n he hnd p hp with hpm | rfl
      · exact (hx.mem_next p).mpr (.inr hpm)
      · exact hx.domain_mem h ht hd
    · rw [h.parent_root] at hp; cases hp

theorem child {n : Nat} (hn : n ∈ next) (hcomp : (c.node n).isCompound = true) :
    ∃ k, c.activeChildren n next = [k] := by
  rcases hx.within_or h n with ⟨t, ht, d, hd, hw⟩ | ⟨hself, hchild⟩
  · have hf := hx.filled t ht d hd
    have hin : ∀ {k}, (c.node k).parent = some n → c.isDescendant k d = true := fun hk =>
      h.isDescendant_within (h.isDescendant_of_parent hk) hw
    obtain ⟨k, hk, hkn⟩ := hf.child n hw (hx.mem_within ht hd hw hn) hcomp
    refine ⟨k, activeChildren_eq_singleton h.toIsTree ((hx.mem_next k).mpr (.inr hk)) hkn
      fun j hj hjn => ?_⟩
    have hje := (hx.mem_inside ht hd (hin hjn)).mp hj
    exact (hf.together j hje k hk (hin hjn) (hin hkn)).child_eq h.toIsTree hcomp hjn hkn
  · obtain ⟨k, hk⟩ := hx.legal.child n (hself.mp hn) hcomp
    have hm := (mem_activeChildren h.toIsTree).mp (hk ▸ List.mem_singleton.mpr rfl)
    refine ⟨k, activeChildren_eq_singleton h.toIsTree ((hchild k hm.1).mpr hm.2) hm.1
      fun j hj hjn => ?_⟩
    exact hx.legal.child_unique h.toIsTree hcomp ((hchild j hjn).mp hj) hm.2 hjn hm.1

/-- Exits and entries of selected transitions lead from legal to legal. -/
theorem legal_next : c.Legal next where
  lt_size n hn := by
    rcases (hx.mem_next n).mp hn with ⟨hc, -⟩ | he
    · exact hx.legal.lt_size n hc
    · obtain ⟨t, -, d, -, hnd | ⟨rfl, -⟩⟩ := hx.entered n he
      · exact h.lt_size hnd
      · exact h.root_lt
  root_mem := hx.root_mem h
  parent_mem _ hn _ hp := hx.parent_mem h hn hp
  not_history n hn := by
    rcases (hx.mem_next n).mp hn with ⟨hc, -⟩ | he
    · exact hx.legal.not_history n hc
    · obtain ⟨t, ht, d, hd, hnd | ⟨rfl, -⟩⟩ := hx.entered n he
      · exact (hx.filled t ht d hd).not_history n he hnd
      · exact root_not_history h
  child _ hn hcomp := hx.child h hn hcomp
  region n hn hpar r hr := by
    have hrn := ((mem_regions h.toIsTree).mp hr).1
    rcases hx.within_or h n with ⟨t, ht, d, hd, hw⟩ | ⟨hself, hchild⟩
    · exact (hx.mem_next r).mpr
        (.inr ((hx.filled t ht d hd).region n hw (hx.mem_within ht hd hw hn) hpar r hr))
    · exact (hchild r hrn).mpr (hx.legal.region n (hself.mp hn) hpar r hr)

end Exchange

end Statechart.Chart
