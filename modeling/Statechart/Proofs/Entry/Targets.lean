import Statechart.Proofs.Entry.Partial

/-!
# Entries fill their domains

One transition adds the insides of its targets, then the ancestors of what they stand for,
and at last the regions that a parallel domain is missing. The targets are orthogonal, so the
inside of each is new to the set and together with what the earlier ones brought in.

* `Partial.addTargets`: the first of the three steps; the others are in `Entry.Partial`.
* `addEntries_filled`: afterwards nothing is missing inside the domain.
* `entrySet_filled`: nor, at the end, inside the domain of any transition of a set whose
  domains are apart.
-/
namespace Statechart.Chart

variable {c : Chart} {history : Dict (List Nat)}

/-- States that can be entered together in place of a history state with parent `p`. -/
structure Restores (c : Chart) (p : Nat) (states : List Nat) : Prop where
  ne_nil : states ≠ []
  inside : ∀ t ∈ states, (c.node t).isHistory = false ∧ c.isDescendant t p = true
  orthogonal : states.Pairwise c.Orthogonal

/-- What history states stand for can be entered. -/
def Restorable (c : Chart) (history : Dict (List Nat)) : Prop :=
  ∀ n p, (c.node n).isHistory = true → (c.node n).parent = some p →
    c.Restores p (c.restored history n)

theorem Restorable.confined (hr : c.Restorable history) : c.Confined history :=
  fun n p hn hp t ht => ((hr n p hn hp).inside t ht).2

/-- None of the states that `n` may bring in is in the set. -/
def Clear (c : Chart) (s : NodeSet) (n : Nat) : Prop := ∀ x ∈ s, ¬ c.Brings n x

/-- The set holds what the target `n` stands for, and what is inside of that. -/
structure Placed (c : Chart) (history : Dict (List Nat)) (s : NodeSet) (n : Nat) : Prop where
  complete : (c.node n).isHistory = false → c.Complete s n
  restored : ∀ p, (c.node n).isHistory = true → (c.node n).parent = some p →
    c.Partial s (c.restored history n) p [] ∧ ∀ q ∈ c.restored history n, q ∈ s

theorem effectiveTargets_of_not_history {n : Nat} (hn : (c.node n).isHistory = false) :
    c.effectiveTargets history n = [n] := by
  simp [effectiveTargets, hn]

theorem effectiveTargets_of_history {n : Nat} (hn : (c.node n).isHistory = true) :
    c.effectiveTargets history n = c.restored history n := by
  simp [effectiveTargets, hn]

/-! ## Targets -/

section Targets

variable {names : Names} (h : c.Accepted names)
include h

theorem within_anchor {n a : Nat} (hn : c.isDescendant n a = true) : c.Within (c.anchor n) a := by
  cases hh : (c.node n).isHistory with
  | false => rw [anchor_of_not_history hh]; exact .inr hn
  | true =>
    obtain ⟨p, hp⟩ := h.exists_parent_of_history hh
    rw [anchor_of_history hh hp]
    exact (h.isDescendant_iff_parent hp).mp hn

theorem Brings.within_anchor {n x : Nat} (hb : c.Brings n x) : c.Within x (c.anchor n) := by
  cases hh : (c.node n).isHistory with
  | false => rw [anchor_of_not_history hh]; exact (brings_of_not_history hh).mp hb
  | true =>
    obtain ⟨p, hp⟩ := h.exists_parent_of_history hh
    rw [anchor_of_history hh hp]
    exact .inr ((brings_of_history hh hp).mp hb)

theorem anchor_lt {n : Nat} (hn : n < c.size) : c.anchor n < c.size := by
  rcases h.within_root hn with rfl | hd
  · rw [anchor_of_not_history (root_not_history h)]; exact hn
  · rcases Chart.within_anchor h hd with e | ha
    · rw [e]; exact h.root_lt
    · exact h.lt_size ha

theorem Orthogonal.not_brings {m n x : Nat} (ho : c.Orthogonal m n) (hm : c.Brings m x) :
    ¬ c.Brings n x := fun hn =>
  (h.within_total (hm.within_anchor h) (hn.within_anchor h)).elim ho.1 ho.2.1

/-- What one of two orthogonal targets brings in is together with the place of the other. -/
theorem Orthogonal.together_anchor {m n x : Nat} (ho : c.Orthogonal m n) (hm : m < c.size)
    (hn : n < c.size) (hx : c.Brings m x) : c.Together x (c.anchor n) :=
  ho.together h.toIsTree (anchor_lt h hm) (anchor_lt h hn) (hx.within_anchor h) (.refl _)

theorem Partial.addTarget {s s' : NodeSet} {seeds : List Nat} {a n : Nat}
    (hp : c.Partial s seeds a []) (hg : Grows (c.Brings n) s s') (hc : c.Clear s n)
    (hpl : c.Placed history s' n)
    (ht : ∀ y ∈ s, c.isDescendant y a = true → c.Together y (c.anchor n)) :
    c.Partial s' (seeds ++ c.effectiveTargets history n) a [] := by
  cases hh : (c.node n).isHistory with
  | false =>
    rw [effectiveTargets_of_not_history hh]
    rw [anchor_of_not_history hh] at ht
    refine hp.addBlock h.toIsTree (hg.mono fun x hx => (brings_of_not_history hh).mp hx)
      (hpl.complete hh) (fun x hx hw => hc x hx ((brings_of_not_history hh).mpr hw))
      (fun q hq => List.mem_append_left _ hq) (fun p _ => .inr ⟨n, by simp, .refl n⟩) ht
  | true =>
    obtain ⟨p, hpn⟩ := h.exists_parent_of_history hh
    rw [effectiveTargets_of_history hh]
    rw [anchor_of_history hh hpn] at ht
    exact hp.addRestored h.toIsTree (hg.mono fun x hx => (brings_of_history hh hpn).mp hx)
      (hpl.restored p hh hpn).1 (fun x hx hd => hc x hx ((brings_of_history hh hpn).mpr hd))
      (fun q hq => List.mem_append_left _ hq) (fun q hq => List.mem_append_right _ hq) ht

theorem Placed.mem {s : NodeSet} {n q : Nat} (hpl : c.Placed history s n)
    (hq : q ∈ c.effectiveTargets history n) : q ∈ s := by
  cases hh : (c.node n).isHistory with
  | false =>
    rw [effectiveTargets_of_not_history hh, List.mem_singleton] at hq
    subst hq; exact (hpl.complete hh).mem
  | true =>
    obtain ⟨p, hp⟩ := h.exists_parent_of_history hh
    rw [effectiveTargets_of_history hh] at hq
    exact (hpl.restored p hh hp).2 q hq

/-- Orthogonal targets join a set that has nothing inside `a`, one after the other. -/
theorem Partial.addTargets {add : Nat → NodeSet → Option NodeSet} {targets : List Nat} {a : Nat}
    (hgrow : ∀ n ∈ targets, ∀ s s', add n s = some s' → Grows (c.Brings n) s s')
    (hadd : ∀ n ∈ targets, ∀ s s', c.Clear s n → add n s = some s' → c.Placed history s' n)
    (hin : ∀ n ∈ targets, c.isDescendant n a = true) (ho : targets.Pairwise c.Orthogonal)
    {s s' : NodeSet} (hs : ∀ x ∈ s, ¬ c.isDescendant x a = true)
    (he : targets.foldlM (fun s n => add n s) s = some s') :
    c.Partial s' (targets.flatMap (c.effectiveTargets history)) a [] ∧
      ∀ q ∈ targets.flatMap (c.effectiveTargets history), q ∈ s' := by
  -- What is inside `a` so far was brought in by targets orthogonal to all that are to come.
  have go : ∀ (l seeds : List Nat) s s', (∀ n ∈ l, n ∈ targets) → l.Pairwise c.Orthogonal →
      c.Partial s seeds a [] →
      (∀ x ∈ s, c.isDescendant x a = true →
        ∃ m, m < c.size ∧ c.Brings m x ∧ ∀ n ∈ l, c.Orthogonal m n) →
      l.foldlM (fun s n => add n s) s = some s' →
      c.Partial s' (seeds ++ l.flatMap (c.effectiveTargets history)) a [] ∧
        (∀ x ∈ s, x ∈ s') ∧ ∀ q ∈ l.flatMap (c.effectiveTargets history), q ∈ s' := by
    intro l
    induction l with
    | nil =>
      intro seeds s s' _ _ hp _ he
      cases he
      exact ⟨by simpa using hp, fun x hx => hx, fun q hq => absurd hq List.not_mem_nil⟩
    | cons n l ih =>
      intro seeds s s' hl ho hp hbr he
      obtain ⟨hon, ho⟩ := List.pairwise_cons.mp ho
      have hn := hl n (by simp)
      have hna := hin n hn
      simp only [List.foldlM_cons, Option.bind_eq_bind, Option.bind_eq_some_iff] at he
      obtain ⟨t, ht, he⟩ := he
      have hg := hgrow n hn s t ht
      have hclear : c.Clear s n := by
        intro x hx hb
        obtain ⟨m, -, hmx, hm⟩ := hbr x hx (hb.isDescendant h.toIsTree hna)
        exact (hm n (by simp)).not_brings h hmx hb
      have hpl := hadd n hn s t hclear ht
      have hpt := hp.addTarget h hg hclear hpl fun y hy hya => by
        obtain ⟨m, hms, hmy, hm⟩ := hbr y hy hya
        exact (hm n (by simp)).together_anchor h hms (h.lt_size hna) hmy
      obtain ⟨h1, h2, h3⟩ := ih (seeds ++ c.effectiveTargets history n) t s'
        (fun k hk => hl k (by simp [hk])) ho hpt
        (fun x hx hxa => by
          rcases hg.gained x hx with hx | hb
          · obtain ⟨m, hms, hmx, hm⟩ := hbr x hx hxa
            exact ⟨m, hms, hmx, fun k hk => hm k (by simp [hk])⟩
          · exact ⟨n, h.lt_size hna, hb, hon⟩) he
      refine ⟨by simpa using h1, fun x hx => h2 x (hg.kept x hx), fun q hq => ?_⟩
      rw [List.flatMap_cons, List.mem_append] at hq
      rcases hq with hq | hq
      · exact h2 q (hpl.mem h hq)
      · exact h3 q hq
  obtain ⟨h1, -, h3⟩ := go targets [] s s' (fun _ hn => hn) ho (.of_fresh hs _ _)
    (fun x hx hd => absurd hd (hs x hx)) he
  exact ⟨by simpa using h1, h3⟩

end Targets

/-! ## The entry of one state -/

section Enter

variable {names : Names} (h : c.Accepted names) (we : c.Enterable) (hr : c.Restorable history)
include h hr

theorem addInside_within (calls r : Nat) (hr' : r < c.size) (hh : (c.node r).isHistory = false)
    (s s' : NodeSet) (he : c.addInside history calls r s = some s') :
    Grows (fun x => c.Within x r) s s' :=
  (addInside_grows h hr.confined calls r hr' s s' he).mono fun _ hx =>
    (brings_of_not_history hh).mp hx

include we

theorem addInside_placed {calls n : Nat} (hn : n < c.size) {s s' : NodeSet} (hc : c.Clear s n)
    (he : c.addInside history calls n s = some s') : c.Placed history s' n where
  complete hh := addInside_complete h we hr.confined calls n hn hh s s'
    (fun x hx hw => hc x hx ((brings_of_not_history hh).mpr hw)) he
  restored p hh hp := by
    cases calls with
    | zero => cases he
    | succ calls =>
      simp only [addInside, hh, if_true, hp, Option.bind_eq_bind, Option.bind_eq_some_iff] at he
      obtain ⟨t, ht, he⟩ := he
      obtain ⟨-, hin, ho⟩ := hr n p hh hp
      -- What is restored is no history state, so it stands for itself.
      have hself : (c.restored history n).flatMap (c.effectiveTargets history)
          = c.restored history n := by
        rw [List.flatMap_congr fun q hq => effectiveTargets_of_not_history (hin q hq).1]
        simp
      have hplaced : ∀ q ∈ c.restored history n, ∀ s s', c.Clear s q →
          c.addInside history calls q s = some s' → c.Placed history s' q := fun q hq s s' hc he =>
        ⟨fun hqh => addInside_complete h we hr.confined calls q (h.lt_size (hin q hq).2) hqh s s'
            (fun x hx hw => hc x hx ((brings_of_not_history hqh).mpr hw)) he,
          fun _ hqh => by rw [(hin q hq).1] at hqh; cases hqh⟩
      obtain ⟨h1, h2⟩ := Partial.addTargets h (a := p)
        (fun q hq s s' he =>
          addInside_grows h hr.confined calls q (h.lt_size (hin q hq).2) s s' he)
        hplaced (fun q hq => (hin q hq).2) ho
        (fun x hx hd => hc x hx ((brings_of_history hh hp).mpr hd)) ht
      rw [hself] at h1 h2
      obtain ⟨h3, h4, -⟩ := h1.addAllAncestors h
        (addInside_within h hr calls) (addInside_complete h we hr.confined calls)
        (fun q hq => hq) (fun q hq => (hin q hq).2) h2 he
      exact ⟨h3, fun q hq => h4 q (h2 q hq)⟩

end Enter

/-! ## The entry of a transition -/

theorem addMissingRegions_of_covers {add : Nat → NodeSet → Option NodeSet} {n : Nat} {s : NodeSet}
    (hc : ∀ r ∈ c.regions n, c.covers s r = true) : c.addMissingRegions add n s = some s := by
  unfold addMissingRegions
  generalize c.regions n = l at hc
  induction l with
  | nil => rfl
  | cons r l ih =>
    rw [List.foldlM_cons, if_pos (hc r (by simp))]
    exact ih fun r hr => hc r (by simp [hr])

section Entries

variable {names : Names} (h : c.Accepted names) (we : c.Enterable) (hr : c.Restorable history)
include h we hr

omit we hr in
/-- The root is orthogonal to nothing, so a transition that goes to it goes nowhere else. -/
theorem targets_eq_root {t d : Nat} (ho : c.AimsApart t) (hs : (c.transition t).source < c.size)
    (hd : c.domain t = some d) (hroot : root ∈ (c.transition t).targets) :
    (c.transition t).targets = [root] ∧ d = root := by
  obtain ⟨-, -, htargets⟩ := domain_spec h.toIsTree hd hs fun n hn => h.target_lt hn
  obtain ⟨pre, post, hsplit⟩ := List.append_of_mem hroot
  have hwr : ∀ n ∈ (c.transition t).targets, c.Within (c.anchor n) (c.anchor root) := by
    intro n hn
    rw [anchor_of_not_history (root_not_history h)]
    exact h.within_root (anchor_lt h (h.target_lt hn))
  constructor
  · rw [AimsApart, hsplit] at ho
    rw [hsplit] at hwr ⊢
    obtain ⟨-, hpost, hpre⟩ := List.pairwise_append.mp ho
    have hpre' : pre = [] := List.eq_nil_iff_forall_not_mem.mpr fun n hn =>
      (hpre n hn root (by simp)).1 (hwr n (by simp [hn]))
    have hpost' : post = [] := List.eq_nil_iff_forall_not_mem.mpr fun n hn =>
      ((List.pairwise_cons.mp hpost).1 n hn).2.1 (hwr n (by simp [hn]))
    rw [hpre', hpost']; rfl
  · rcases htargets root hroot with hdesc | ⟨-, e⟩
    · exact absurd hdesc (h.not_root_isDescendant d)
    · exact e

theorem addEntries_root {t d : Nat} (ho : c.AimsApart t) (hs : (c.transition t).source < c.size)
    (hd : c.domain t = some d) (hroot : root ∈ (c.transition t).targets) {s s' : NodeSet}
    (hf : c.Fresh s d) (he : c.addEntries history s t = some s') : c.Filled s' d := by
  obtain ⟨honly, rfl⟩ := targets_eq_root h ho hs hd hroot
  simp only [addEntries, hd, enter, honly, Option.bind_eq_bind, Option.bind_eq_some_iff,
    List.foldlM_cons, List.foldlM_nil] at he
  obtain ⟨s1, ⟨_, h1, e⟩, s2, h2, h3⟩ := he
  cases e
  rw [List.flatMap_singleton, effectiveTargets_of_not_history (root_not_history h),
    List.foldlM_cons, addAncestors, ancestorsUntil_of_none h.parent_root] at h2
  cases h2
  have hc := addInside_complete h we hr.confined _ root h.root_lt (root_not_history h) s s1 hf h1
  split at h3
  · rename_i hpar
    rw [addMissingRegions_of_covers fun r hr => covers_iff.mpr
      ⟨r, hc.region root hc.mem (.refl _) hpar r hr, .refl r⟩] at h3
    cases h3; exact hc.filled
  · cases h3; exact hc.filled

omit we in
theorem exists_effectiveTarget (n : Nat) :
    ∃ q ∈ c.effectiveTargets history n, c.Within q (c.anchor n) := by
  cases hh : (c.node n).isHistory with
  | false =>
    rw [effectiveTargets_of_not_history hh, anchor_of_not_history hh]
    exact ⟨n, List.mem_singleton.mpr rfl, .refl n⟩
  | true =>
    obtain ⟨p, hp⟩ := h.exists_parent_of_history hh
    have hrestores := hr n p hh hp
    obtain ⟨q, hq⟩ := List.exists_mem_of_ne_nil _ hrestores.ne_nil
    rw [effectiveTargets_of_history hh, anchor_of_history hh hp]
    exact ⟨q, hq, .inr (hrestores.inside q hq).2⟩

omit we in
/-- Some target of a transition with a domain stands for something. -/
theorem exists_effective {t d : Nat} (hd : c.domain t = some d) :
    ∃ q, q ∈ (c.transition t).targets.flatMap (c.effectiveTargets history) := by
  cases htl : (c.transition t).targets with
  | nil =>
    unfold domain at hd
    simp [Transition.isTargetless, htl] at hd
  | cons n rest =>
    obtain ⟨q, hq, -⟩ := exists_effectiveTarget h hr n
    exact ⟨q, List.mem_flatMap.mpr ⟨n, List.mem_cons_self, hq⟩⟩

theorem Partial.addDomainRegions {seeds : List Nat} {d : Nat} {s s' : NodeSet}
    (hp : c.Partial s seeds d []) (hreach : c.Reached s seeds d)
    (hpar : (c.node d).isParallel = true)
    (he : c.addMissingRegions (c.addInside history c.entryBound) d s = some s') :
    c.Filled s' d := by
  have hreg : ∀ r ∈ c.regions d, r < c.size ∧ (c.node r).isHistory = false := fun r hr =>
    region_plain h.toIsTree hr
  have hgrow := fun r hrd => addInside_within h hr c.entryBound r (hreg r hrd).1 (hreg r hrd).2
  have hadd := fun r hrd =>
    addInside_complete h we hr.confined c.entryBound r (hreg r hrd).1 (hreg r hrd).2
  have hg := addMissingRegions_grows h
    (fun r hrs s s' he => addInside_grows h hr.confined _ r (hreg r hrs).1 s s' he) he
  -- The regions of the domain count as seeds, since the domain itself need not be there.
  have hseeded : c.Partial s (seeds ++ c.regions d) d [d] :=
    { hp.mono_seeds fun q hq => List.mem_append_left _ hq with
      region := fun x hx hxd _ => hp.region x hx hxd List.not_mem_nil }
  have hadded := hseeded.addMissingRegions h.toIsTree hpar hgrow hadd
    (.inr fun r hr => List.mem_append_right _ hr)
    (fun y _ hyd => together_of_isDescendant h.toIsTree hyd) he
  refine hadded.filled h.toIsTree (fun q hq x hqx hxd => ?_) (fun hc => ?_) fun _ r hr => ?_
  · rcases List.mem_append.mp hq with hq | hq
    · exact hg.kept x (hreach q hq x hqx hxd)
    · have hw := (h.isDescendant_iff_parent ((mem_regions h.toIsTree).mp hq).1).mp hqx
      exact absurd (h.within_isDescendant hw hxd) not_isDescendant_self
  · rw [Node.not_parallel_of_compound hc] at hpar; cases hpar
  · obtain ⟨hcov, hnew⟩ := addMissingRegions_spec h.toIsTree hgrow hadd he r hr
    cases hc : c.covers s r with
    | true =>
      obtain ⟨y, hy, hw⟩ := covers_iff.mp hc
      exact ⟨y, hg.kept y hy, hw⟩
    | false => exact ⟨r, (hnew hc).mem, .refl r⟩

/-- A transition whose domain is new to the set fills it. -/
theorem addEntries_filled {t d : Nat} (ho : c.AimsApart t) (hs : (c.transition t).source < c.size)
    (hd : c.domain t = some d) {s s' : NodeSet} (hf : c.Fresh s d)
    (he : c.addEntries history s t = some s') : c.Filled s' d := by
  by_cases hroot : root ∈ (c.transition t).targets
  · exact addEntries_root h we hr ho hs hd hroot hf he
  obtain ⟨-, hkind, htargets⟩ := domain_spec h.toIsTree hd hs fun n hn => h.target_lt hn
  simp only [addEntries, hd, enter, Option.bind_eq_bind, Option.bind_eq_some_iff] at he
  obtain ⟨s1, h1, s2, h2, h3⟩ := he
  have hin : ∀ n ∈ (c.transition t).targets, c.isDescendant n d = true := by
    intro n hn
    rcases htargets n hn with hnd | ⟨rfl, -⟩
    · exact hnd
    · exact absurd hn hroot
  have hplaced : ∀ n ∈ (c.transition t).targets, ∀ s s', c.Clear s n →
      c.addInside history c.entryBound n s = some s' → c.Placed history s' n :=
    fun n hn s s' hc he => addInside_placed h we hr (h.target_lt hn) hc he
  obtain ⟨hp1, hm1⟩ := Partial.addTargets h
    (fun n hn s s' he => addInside_grows h hr.confined _ n (h.target_lt hn) s s' he)
    hplaced hin ho
    (fun x hx hxd => hf x hx (.inr hxd)) h1
  have hseeds : ∀ q ∈ (c.transition t).targets.flatMap (c.effectiveTargets history),
      c.isDescendant q d = true := by
    intro q hq
    obtain ⟨n, hn, hqn⟩ := List.mem_flatMap.mp hq
    exact effectiveTargets_isDescendant h (hr.confined.inside d) (hin n hn) hqn
  obtain ⟨hp2, hk2, hreach⟩ := hp1.addAllAncestors h (addInside_within h hr c.entryBound)
    (addInside_complete h we hr.confined c.entryBound) (fun q hq => hq) hseeds hm1 h2
  split at h3
  · rename_i hpar
    exact hp2.addDomainRegions h we hr hreach hpar h3
  · rename_i hpar
    cases h3
    obtain ⟨q, hq⟩ := exists_effective h hr hd
    exact hp2.filled h.toIsTree hreach (fun _ => ⟨q, hk2 q (hm1 q hq), hseeds q hq⟩)
      fun hp => absurd hp hpar

/-- Transitions whose domains are apart fill all of them, if none was there before. -/
theorem addAllEntries_filled : ∀ {l : List Nat} {s s' : NodeSet},
    (∀ t ∈ l, c.AimsApart t) → (∀ t ∈ l, (c.transition t).source < c.size) →
    l.Pairwise c.Apart → (∀ t ∈ l, ∀ d, c.domain t = some d → c.Fresh s d) →
    l.foldlM (c.addEntries history) s = some s' →
      Grows (c.Entered l) s s' ∧ ∀ t ∈ l, ∀ d, c.domain t = some d → c.Filled s' d := by
  intro l
  induction l with
  | nil =>
    intro s s' _ _ _ _ he
    cases he
    exact ⟨.refl _ _, fun t ht => absurd ht List.not_mem_nil⟩
  | cons t l ih =>
    intro s s' ho hs hap hf he
    obtain ⟨hat, hap⟩ := List.pairwise_cons.mp hap
    have hto := ho t (by simp)
    have hts := hs t (by simp)
    replace ho : ∀ k ∈ l, c.AimsApart k := fun k hk => ho k (by simp [hk])
    replace hs : ∀ k ∈ l, (c.transition k).source < c.size := fun k hk => hs k (by simp [hk])
    simp only [List.foldlM_cons, Option.bind_eq_bind, Option.bind_eq_some_iff] at he
    obtain ⟨u, hu, he⟩ := he
    cases hd : c.domain t with
    | none =>
      simp only [addEntries, hd, Option.some.injEq] at hu
      subst hu
      obtain ⟨h1, h2⟩ := ih ho hs hap (fun k hk => hf k (by simp [hk])) he
      refine ⟨h1.mono fun _ => Entered.of_cons, fun k hk d hkd => ?_⟩
      rcases List.mem_cons.mp hk with rfl | hk
      · rw [hd] at hkd; cases hkd
      · exact h2 k hk d hkd
    | some d =>
      have hg : Grows (fun x => c.isDescendant x d = true ∨ x = root ∧ d = root) s u :=
        (addEntries_grows h (hr.confined.inside d) hd hts hu).mono fun x hx =>
          hx.imp id fun hroot => ⟨hroot.1, hroot.2.1⟩
      have hfill := addEntries_filled h we hr hto hts hd (hf t (by simp) d hd) hu
      have hwd : ∀ {x}, c.isDescendant x d = true ∨ x = root ∧ d = root → c.Within x d := by
        rintro x (hx | ⟨rfl, rfl⟩)
        · exact .inr hx
        · exact .refl _
      -- Whatever the first transition brings in is outside of the domains of the others.
      obtain ⟨h1, h2⟩ := ih ho hs hap (fun k hk e hke x hx hxe => by
        rcases hg.gained x hx with hx | hxd
        · exact hf k (by simp [hk]) e hke x hx hxe
        · obtain ⟨n1, n2⟩ := hat k hk d e hd hke
          exact (h.within_total (hwd hxd) hxe).elim n1 n2) he
      refine ⟨(hg.mono fun x hx => ⟨t, by simp, d, hd, hx⟩).trans
        (h1.mono fun _ => Entered.of_cons), fun k hk e hke => ?_⟩
      rcases List.mem_cons.mp hk with rfl | hk
      · rw [hd] at hke; cases hke
        refine hfill.congr h.toIsTree fun x hxd => ⟨fun hx => ?_, h1.kept x⟩
        rcases h1.gained x hx with hx | ⟨k, hk, e, hke, hxe⟩
        · exact hx
        · obtain ⟨n1, n2⟩ := hat k hk d e hd hke
          rcases hxe with hxe | ⟨rfl, -⟩
          · exact ((h.within_total (.inr hxd) (.inr hxe)).elim n1 n2).elim
          · exact absurd hxd (h.not_root_isDescendant d)
      · exact h2 k hk e hke

/-- The entry set of transitions whose domains are apart fills all of the domains. -/
theorem entrySet_filled {transitions : List Nat} (ho : ∀ t ∈ transitions, c.AimsApart t)
    (hs : ∀ t ∈ transitions, (c.transition t).source < c.size)
    (hap : transitions.Pairwise c.Apart) {entries : NodeSet}
    (he : c.entrySet history transitions = some entries) :
    ∀ t ∈ transitions, ∀ d, c.domain t = some d → c.Filled entries d :=
  (addAllEntries_filled h we hr ho hs hap
    (fun _ _ _ _ _ hx => absurd hx NodeSet.mem_empty.mp) he).2

end Entries

end Statechart.Chart
