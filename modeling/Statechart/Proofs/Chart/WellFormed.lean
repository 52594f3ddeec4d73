import Statechart.Proofs.Entry.Confined

/-!
# Orthogonal states and well-formed charts

Two states are orthogonal when neither contains the other and the least state that contains
both is parallel. A chart is well formed when its defaults can be entered and its lists of
targets name orthogonal states; acceptance alone does not ask for this.

What later proofs use of orthogonality is `Together`: no compound state has the two states in
different children. States that can be active at one time are together, so it is kept as an
invariant of sets under construction, and it is what makes the active child of a compound
state unique.

* `Orthogonal.together`: states in orthogonal places are together.
* `Together.child_eq`: two children of a compound state that are together are equal.
-/
namespace Statechart.Chart

variable {c : Chart}

instance (n a : Nat) : Decidable (c.Within n a) := inferInstanceAs (Decidable (_ ∨ _))

/-- The nearest of a state and its ancestors that is `b` or contains it. -/
def leastCommon (c : Chart) (a b : Nat) : Nat :=
  ((a :: c.ancestors a).find? fun x => decide (c.Within b x)).getD root

/-- Neither state contains the other, and the least state that contains both is parallel. A
history state is counted as its parent. -/
def Orthogonal (c : Chart) (m n : Nat) : Prop :=
  ¬ c.Within (c.anchor m) (c.anchor n) ∧ ¬ c.Within (c.anchor n) (c.anchor m) ∧
    (c.node (c.leastCommon (c.anchor m) (c.anchor n))).isParallel = true

instance (m n : Nat) : Decidable (c.Orthogonal m n) := inferInstanceAs (Decidable (_ ∧ _))

/-- Defaults can be entered, and lists of targets name orthogonal states. -/
structure WellFormed (c : Chart) : Prop where
  /-- A compound state has a default child that is no history state. -/
  initial : ∀ n < c.size, (c.node n).isCompound = true →
    ∃ k, (c.node n).initial = some k ∧ k ∈ c.regions n
  /-- A parallel state has a region. -/
  regions_ne_nil : ∀ n < c.size, (c.node n).isParallel = true → c.regions n ≠ []
  /-- A history state stands by default for states inside its parent, none a history state. -/
  default_inside : ∀ n < c.size, ∀ t ∈ (c.node n).historyTarget, (c.node t).isHistory = false ∧
    ∃ p, (c.node n).parent = some p ∧ c.isDescendant t p = true
  default_orthogonal : ∀ n < c.size, (c.node n).historyTarget.Pairwise c.Orthogonal
  targets_orthogonal : ∀ t < c.transitions.size, (c.transition t).targets.Pairwise c.Orthogonal

instance : Decidable c.WellFormed :=
  decidable_of_iff
    ((∀ n < c.size, (c.node n).isCompound = true →
        ((c.node n).initial.any fun k => decide (k ∈ c.regions n)) = true) ∧
      (∀ n < c.size, (c.node n).isParallel = true → c.regions n ≠ []) ∧
      (∀ n < c.size, ∀ t ∈ (c.node n).historyTarget, (c.node t).isHistory = false ∧
        ((c.node n).parent.any fun p => c.isDescendant t p) = true) ∧
      (∀ n < c.size, (c.node n).historyTarget.Pairwise c.Orthogonal) ∧
      ∀ t < c.transitions.size, (c.transition t).targets.Pairwise c.Orthogonal)
    ⟨fun ⟨h1, h2, h3, h4, h5⟩ => ⟨by simpa [Option.any_eq_true] using h1, h2,
        by simpa [Option.any_eq_true] using h3, h4, h5⟩,
      fun ⟨h1, h2, h3, h4, h5⟩ => ⟨by simpa [Option.any_eq_true] using h1, h2,
        by simpa [Option.any_eq_true] using h3, h4, h5⟩⟩

/-- What a well-formed chart has apart from its transitions: its defaults can be entered. -/
structure Enterable (c : Chart) : Prop where
  initial : ∀ n < c.size, (c.node n).isCompound = true →
    ∃ k, (c.node n).initial = some k ∧ k ∈ c.regions n
  regions_ne_nil : ∀ n < c.size, (c.node n).isParallel = true → c.regions n ≠ []
  default_inside : ∀ n < c.size, ∀ t ∈ (c.node n).historyTarget, (c.node t).isHistory = false ∧
    ∃ p, (c.node n).parent = some p ∧ c.isDescendant t p = true
  default_orthogonal : ∀ n < c.size, (c.node n).historyTarget.Pairwise c.Orthogonal

instance : Decidable c.Enterable :=
  decidable_of_iff
    ((∀ n < c.size, (c.node n).isCompound = true →
        ((c.node n).initial.any fun k => decide (k ∈ c.regions n)) = true) ∧
      (∀ n < c.size, (c.node n).isParallel = true → c.regions n ≠ []) ∧
      (∀ n < c.size, ∀ t ∈ (c.node n).historyTarget, (c.node t).isHistory = false ∧
        ((c.node n).parent.any fun p => c.isDescendant t p) = true) ∧
      ∀ n < c.size, (c.node n).historyTarget.Pairwise c.Orthogonal)
    ⟨fun ⟨h1, h2, h3, h4⟩ => ⟨by simpa [Option.any_eq_true] using h1, h2,
        by simpa [Option.any_eq_true] using h3, h4⟩,
      fun ⟨h1, h2, h3, h4⟩ => ⟨by simpa [Option.any_eq_true] using h1, h2,
        by simpa [Option.any_eq_true] using h3, h4⟩⟩

/-- A transition targets orthogonal states. -/
def AimsApart (c : Chart) (t : Nat) : Prop := (c.transition t).targets.Pairwise c.Orthogonal

instance (t : Nat) : Decidable (c.AimsApart t) := inferInstanceAs (Decidable (List.Pairwise _ _))

namespace WellFormed

variable (wf : c.WellFormed)
include wf

theorem enterable : c.Enterable :=
  ⟨wf.initial, wf.regions_ne_nil, wf.default_inside, wf.default_orthogonal⟩

theorem aimsApart (t : Nat) : c.AimsApart t := by
  by_cases ht : t < c.transitions.size
  · exact wf.targets_orthogonal t ht
  · unfold AimsApart transition
    rw [Array.getD_eq_getD_getElem?, Array.getElem?_eq_none (Nat.not_lt.mp ht)]
    exact .nil

end WellFormed

/-! ## Together -/

/-- No compound state has the two states in different children. -/
def Together (c : Chart) (m n : Nat) : Prop :=
  ∀ x, (c.node x).isCompound = true → c.isDescendant m x = true → c.isDescendant n x = true →
    ∃ k, (c.node k).parent = some x ∧ c.Within m k ∧ c.Within n k

theorem Together.symm {m n : Nat} (h : c.Together m n) : c.Together n m := fun x hx hn hm => by
  obtain ⟨k, hk, h1, h2⟩ := h x hx hm hn
  exact ⟨k, hk, h2, h1⟩

theorem Together.refl (h : c.IsTree) (n : Nat) : c.Together n n := fun x _ hn _ => by
  obtain ⟨k, hk, hnk⟩ := h.exists_child hn
  exact ⟨k, hk, hnk, hnk⟩

theorem Together.up (h : c.IsTree) {m n a : Nat} (hmn : c.Together m n)
    (ha : c.isDescendant n a = true) : c.Together m a := fun x hx hm hax => by
  obtain ⟨k, hk, hmk, hnk⟩ := hmn x hx hm (h.trans ha hax)
  obtain ⟨l, hl, hal⟩ := h.exists_child hax
  obtain rfl := h.child_unique hk hl hnk (h.within_trans (.inr ha) hal)
  exact ⟨k, hk, hmk, hal⟩

theorem together_of_isDescendant (h : c.IsTree) {m n : Nat} (hd : c.isDescendant m n = true) :
    c.Together m n :=
  (Together.refl h m).up h hd

/-- Two children of one compound state that are together are one. -/
theorem Together.child_eq (h : c.IsTree) {x k l : Nat} (hkl : c.Together k l)
    (hx : (c.node x).isCompound = true) (hk : (c.node k).parent = some x)
    (hl : (c.node l).parent = some x) : k = l := by
  obtain ⟨j, hj, hkj, hlj⟩ := hkl x hx (h.isDescendant_of_parent hk) (h.isDescendant_of_parent hl)
  rw [h.siblings hk hj hkj, h.siblings hl hj hlj]

theorem Together.region (h : c.IsTree) {m n r : Nat} (hmn : c.Together m n)
    (hn : (c.node n).isParallel = true) (hr : (c.node r).parent = some n) : c.Together m r := by
  intro x hx hm hrx
  have hnx : c.isDescendant n x = true := by
    rcases (h.isDescendant_iff_parent hr).mp hrx with rfl | hnx
    · rw [Node.not_parallel_of_compound hx] at hn; cases hn
    · exact hnx
  obtain ⟨k, hk, hmk, hnk⟩ := hmn x hx hm hnx
  exact ⟨k, hk, hmk, .inr (h.isDescendant_within (h.isDescendant_of_parent hr) hnk)⟩

theorem Together.down (h : c.IsTree) {m n z : Nat} (hmn : c.Together m n)
    (hm : ¬ c.Within m n) (hz : c.Within z n) : c.Together m z := by
  intro x hx hmx hzx
  have hnx : c.isDescendant n x = true := by
    rcases h.within_total hz (.inr hzx) with hnx | hxn
    · rcases hnx with rfl | hnx
      · exact absurd (.inr hmx) hm
      · exact hnx
    · exact absurd (.inr (h.isDescendant_within hmx hxn)) hm
  obtain ⟨k, hk, hmk, hnk⟩ := hmn x hx hmx hnx
  exact ⟨k, hk, hmk, h.within_trans hz hnk⟩

/-- The least common state contains both and is within every state that does. -/
theorem leastCommon_spec (h : c.IsTree) {a b : Nat} (ha : a < c.size) (hb : b < c.size) :
    c.Within a (c.leastCommon a b) ∧ c.Within b (c.leastCommon a b) ∧
      ∀ x, c.Within a x → c.Within b x → c.Within (c.leastCommon a b) x := by
  have hmem : ∀ x, x ∈ a :: c.ancestors a ↔ c.Within a x := by
    intro x
    rw [List.mem_cons, mem_ancestors h]
    exact or_congr_left eq_comm
  have hroot : root ∈ a :: c.ancestors a := (hmem root).mpr (h.within_root ha)
  unfold leastCommon
  cases hf : (a :: c.ancestors a).find? fun x => decide (c.Within b x) with
  | none =>
    have := List.find?_eq_none.mp hf root hroot
    exact absurd (h.within_root hb) (by simpa using this)
  | some l =>
    have hl := (hmem l).mp (List.mem_of_find?_eq_some hf)
    have hbl : c.Within b l := by simpa using List.find?_some hf
    refine ⟨hl, hbl, fun x hax hbx => ?_⟩
    rcases h.within_total hl hax with hlx | hxl
    · exact hlx
    · -- Nothing on the way up to `l` contains `b`, and `x` does.
      obtain ⟨-, before, after, hsplit, hbefore⟩ := List.find?_eq_some_iff_append.mp hf
      have hx : x ∈ before ++ l :: after := hsplit ▸ (hmem x).mpr hax
      rcases List.mem_append.mp hx with hx | hx
      · exact absurd hbx (by simpa using hbefore x hx)
      · rcases List.mem_cons.mp hx with rfl | hx
        · exact .refl _
        · have hdesc := ancestors_descending h a
          rw [hsplit] at hdesc
          have hlt := (List.pairwise_cons.mp (List.pairwise_append.mp hdesc).2.1).1 x hx
          rcases hxl with rfl | hxl
          · exact .refl _
          · have := (isDescendant_iff.mp hxl).1
            omega

/-- States within the places of two orthogonal states are together. -/
theorem Orthogonal.together (h : c.IsTree) {m n y z : Nat} (ho : c.Orthogonal m n)
    (hm : c.anchor m < c.size) (hn : c.anchor n < c.size)
    (hy : c.Within y (c.anchor m)) (hz : c.Within z (c.anchor n)) : c.Together y z := by
  obtain ⟨h1, h2, hpar⟩ := ho
  obtain ⟨hml, hnl, hleast⟩ := leastCommon_spec h hm hn
  intro x hx hyx hzx
  have above : ∀ {w a b : Nat}, c.Within w a → c.isDescendant w x = true →
      (∀ v, c.Within v b → c.isDescendant v x = true → ¬ c.Within v a) →
      (∃ v, c.Within v b ∧ c.isDescendant v x = true) → c.isDescendant a x = true := by
    intro w a b hwa hwx hsep ⟨v, hvb, hvx⟩
    rcases h.within_total hwa (.inr hwx) with hax | hxa
    · rcases hax with rfl | hax
      · exact absurd (.inr hvx) (hsep v hvb hvx)
      · exact hax
    · exact absurd (.inr (h.isDescendant_within hvx hxa)) (hsep v hvb hvx)
  have hmx : c.isDescendant (c.anchor m) x = true :=
    above hy hyx (b := c.anchor n) (fun v hv _ hva => (h.within_total hv hva).elim h2 h1)
      ⟨z, hz, hzx⟩
  have hnx : c.isDescendant (c.anchor n) x = true :=
    above hz hzx (b := c.anchor m) (fun v hv _ hva => (h.within_total hv hva).elim h1 h2)
      ⟨y, hy, hyx⟩
  have hlx : c.isDescendant (c.leastCommon (c.anchor m) (c.anchor n)) x = true := by
    rcases hleast x (.inr hmx) (.inr hnx) with e | hlx
    · rw [e, Node.not_parallel_of_compound hx] at hpar; cases hpar
    · exact hlx
  obtain ⟨k, hk, hlk⟩ := h.exists_child hlx
  exact ⟨k, hk, h.within_trans hy (h.within_trans hml hlk),
    h.within_trans hz (h.within_trans hnl hlk)⟩

end Statechart.Chart
