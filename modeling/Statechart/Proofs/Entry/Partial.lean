import Statechart.Proofs.Entry.Complete

/-!
# Entry sets under construction

While targets and their ancestors are added one by one, a set is not complete below the
domain, but it is always `Partial`: what is missing above a state is an ancestor of a seed, a
parallel state has something in each of its regions, and no compound state has members in two
children. Seeds are the effective targets, whose ancestors are still to come.

* `Partial.addBlock`: the complete inside of a new state can join.
* `Partial.addAncestors`: so can the ancestors of a seed, with the regions they are missing.
* `Filled`: when all ancestors of all seeds are there, nothing is missing below the domain.
-/
namespace Statechart.Chart

variable {c : Chart}

/-- What holds inside `a` of a set under construction. The regions of the parallel states in
`todo` are still to be looked at. -/
structure Partial (c : Chart) (s : NodeSet) (seeds : List Nat) (a : Nat) (todo : List Nat) :
    Prop where
  not_history : ∀ x ∈ s, c.isDescendant x a = true → (c.node x).isHistory = false
  child : ∀ x ∈ s, c.isDescendant x a = true → (c.node x).isCompound = true →
    ∃ k ∈ s, (c.node k).parent = some x
  region : ∀ x ∈ s, c.isDescendant x a = true → x ∉ todo → (c.node x).isParallel = true →
    ∀ r ∈ c.regions x, ∃ y ∈ s, c.Within y r
  parent : ∀ x ∈ s, c.isDescendant x a = true → ∀ p, (c.node x).parent = some p →
    p ∈ s ∨ ∃ q ∈ seeds, c.Within q x
  together : ∀ y ∈ s, ∀ z ∈ s, c.isDescendant y a = true → c.isDescendant z a = true →
    c.Together y z

/-- All ancestors of the seeds below `a` are in the set. -/
def Reached (c : Chart) (s : NodeSet) (seeds : List Nat) (a : Nat) : Prop :=
  ∀ q ∈ seeds, ∀ x, c.isDescendant q x = true → c.isDescendant x a = true → x ∈ s

namespace Partial

variable {s s' : NodeSet} {seeds more : List Nat} {a n : Nat} {todo : List Nat}

theorem of_fresh (hf : ∀ x ∈ s, ¬ c.isDescendant x a = true) (seeds todo : List Nat) :
    c.Partial s seeds a todo where
  not_history x hx hd := absurd hd (hf x hx)
  child x hx hd := absurd hd (hf x hx)
  region x hx hd := absurd hd (hf x hx)
  parent x hx hd := absurd hd (hf x hx)
  together y hy _ _ hd := absurd hd (hf y hy)

theorem mono_seeds (hp : c.Partial s seeds a todo) (hsub : ∀ q ∈ seeds, q ∈ more) :
    c.Partial s more a todo :=
  { hp with
    parent := fun x hx hd p he =>
      (hp.parent x hx hd p he).imp id fun ⟨q, hq, hw⟩ => ⟨q, hsub q hq, hw⟩ }

/-- The complete inside of a state that is new to the set and together with all of it joins. -/
theorem addBlock (h : c.IsTree) (hp : c.Partial s seeds a todo)
    (hg : Grows (fun x => c.Within x n) s s') (hc : c.Complete s' n) (hf : c.Fresh s n)
    (hsub : ∀ q ∈ seeds, q ∈ more)
    (hup : ∀ p, (c.node n).parent = some p → p ∈ s' ∨ ∃ q ∈ more, c.Within q n)
    (ht : ∀ y ∈ s, c.isDescendant y a = true → c.Together y n) : c.Partial s' more a todo where
  not_history x hx hd := by
    rcases hg.gained x hx with hx' | hw
    · exact hp.not_history x hx' hd
    · exact hc.not_history x hx hw
  child x hx hd hcomp := by
    rcases hg.gained x hx with hx' | hw
    · obtain ⟨k, hk, he⟩ := hp.child x hx' hd hcomp
      exact ⟨k, hg.kept k hk, he⟩
    · exact hc.child x hx hw hcomp
  region x hx hd htodo hpar r hr := by
    rcases hg.gained x hx with hx' | hw
    · obtain ⟨y, hy, hyr⟩ := hp.region x hx' hd htodo hpar r hr
      exact ⟨y, hg.kept y hy, hyr⟩
    · exact ⟨r, hc.region x hx hw hpar r hr, .refl r⟩
  parent x hx hd p he := by
    rcases hg.gained x hx with hx' | hw
    · rcases hp.parent x hx' hd p he with hm | ⟨q, hq, hqx⟩
      · exact .inl (hg.kept p hm)
      · exact .inr ⟨q, hsub q hq, hqx⟩
    · rcases hw with rfl | hw
      · exact hup p he
      · exact .inl (hc.parent x hx hw p he)
  together y hy z hz hya hza := by
    have mixed : ∀ {u v}, u ∈ s → c.isDescendant u a = true → c.Within v n → c.Together u v :=
      fun hu hua hv => (ht _ hu hua).down h (hf _ hu) hv
    rcases hg.gained y hy with hy' | hyn
    · rcases hg.gained z hz with hz' | hzn
      · exact hp.together y hy' z hz' hya hza
      · exact mixed hy' hya hzn
    · rcases hg.gained z hz with hz' | hzn
      · exact (mixed hz' hza hyn).symm
      · exact hc.together y hy z hz hyn hzn

/-- What a history state inside `a` stands for joins, if that is itself under construction
inside its parent `n`. -/
theorem addRestored (h : c.IsTree) (hp : c.Partial s seeds a [])
    (hg : Grows (fun x => c.isDescendant x n = true) s s') {restored : List Nat}
    (hc : c.Partial s' restored n []) (hf : ∀ x ∈ s, ¬ c.isDescendant x n = true)
    (hsub : ∀ q ∈ seeds, q ∈ more) (hrest : ∀ q ∈ restored, q ∈ more)
    (ht : ∀ y ∈ s, c.isDescendant y a = true → c.Together y n) : c.Partial s' more a [] where
  not_history x hx hd := by
    rcases hg.gained x hx with hx' | hw
    · exact hp.not_history x hx' hd
    · exact hc.not_history x hx hw
  child x hx hd hcomp := by
    rcases hg.gained x hx with hx' | hw
    · obtain ⟨k, hk, he⟩ := hp.child x hx' hd hcomp
      exact ⟨k, hg.kept k hk, he⟩
    · exact hc.child x hx hw hcomp
  region x hx hd htodo hpar r hr := by
    rcases hg.gained x hx with hx' | hw
    · obtain ⟨y, hy, hyr⟩ := hp.region x hx' hd htodo hpar r hr
      exact ⟨y, hg.kept y hy, hyr⟩
    · exact hc.region x hx hw htodo hpar r hr
  parent x hx hd p he := by
    rcases hg.gained x hx with hx' | hw
    · rcases hp.parent x hx' hd p he with hm | ⟨q, hq, hqx⟩
      · exact .inl (hg.kept p hm)
      · exact .inr ⟨q, hsub q hq, hqx⟩
    · rcases hc.parent x hx hw p he with hm | ⟨q, hq, hqx⟩
      · exact .inl hm
      · exact .inr ⟨q, hrest q hq, hqx⟩
  together y hy z hz hya hza := by
    have mixed : ∀ {u v}, u ∈ s → c.isDescendant u a = true → c.isDescendant v n = true →
        c.Together u v := by
      intro u v hu hua hv
      by_cases hun : c.Within u n
      · rcases hun with rfl | hun
        · exact (together_of_isDescendant h hv).symm
        · exact absurd hun (hf u hu)
      · exact (ht u hu hua).down h hun (.inr hv)
    rcases hg.gained y hy with hy' | hyn
    · rcases hg.gained z hz with hz' | hzn
      · exact hp.together y hy' z hz' hya hza
      · exact mixed hy' hya hzn
    · rcases hg.gained z hz with hz' | hzn
      · exact (mixed hz' hza hyn).symm
      · exact hc.together y hy z hz hyn hzn

/-- The parent of a member that has a seed inside joins; its regions are then to be done. -/
theorem insertParent (h : c.IsTree) (hp : c.Partial s seeds a []) {b q : Nat} (hb : b ∈ s)
    (hq : q ∈ seeds) (hqb : c.Within q b) (hba : c.isDescendant b a = true)
    (hn : (c.node b).parent = some n) (hh : (c.node n).isHistory = false) :
    c.Partial (s.insert n) seeds a [n] := by
  have hbn := h.isDescendant_of_parent hn
  have old : ∀ {x}, x ∈ s.insert n → x = n ∨ x ∈ s := fun hx => NodeSet.mem_insert.mp hx
  have new : ∀ {x}, x ∈ s → x ∈ s.insert n := fun hx => NodeSet.mem_insert.mpr (.inr hx)
  have mixed : ∀ {u}, u ∈ s → c.isDescendant u a = true → c.Together u n := fun hu hua =>
    (hp.together _ hu b hb hua hba).up h hbn
  refine ⟨?_, ?_, ?_, ?_, ?_⟩
  · intro x hx hd
    rcases old hx with rfl | hx
    · exact hh
    · exact hp.not_history x hx hd
  · intro x hx hd hcomp
    rcases old hx with rfl | hx
    · exact ⟨b, new hb, hn⟩
    · obtain ⟨k, hk, he⟩ := hp.child x hx hd hcomp
      exact ⟨k, new hk, he⟩
  · intro x hx hd htodo hpar r hr
    rcases old hx with rfl | hx
    · exact absurd (List.mem_singleton.mpr rfl) htodo
    · obtain ⟨y, hy, hyr⟩ := hp.region x hx hd List.not_mem_nil hpar r hr
      exact ⟨y, new hy, hyr⟩
  · intro x hx hd p he
    rcases old hx with rfl | hx
    · exact .inr ⟨q, hq, h.within_trans hqb (.inr hbn)⟩
    · exact (hp.parent x hx hd p he).imp new id
  · intro y hy z hz hya hza
    rcases old hy with rfl | hy'
    · rcases old hz with rfl | hz'
      · exact .refl h _
      · exact (mixed hz' hza).symm
    · rcases old hz with rfl | hz'
      · exact mixed hy' hya
      · exact hp.together y hy' z hz' hya hza

theorem addMissingRegions (h : c.IsTree) (hp : c.Partial s seeds a [n])
    {add : Nat → NodeSet → Option NodeSet}
    (hpar : (c.node n).isParallel = true)
    (hgrow : ∀ r ∈ c.regions n, ∀ s s', add r s = some s' → Grows (fun x => c.Within x r) s s')
    (hadd : ∀ r ∈ c.regions n, ∀ s s', c.Fresh s r → add r s = some s' → c.Complete s' r)
    (hup : n ∈ s ∨ ∀ r ∈ c.regions n, r ∈ seeds)
    (ht : ∀ y ∈ s, c.isDescendant y a = true → c.Together y n)
    (he : c.addMissingRegions add n s = some s') :
    c.Partial s' seeds a [] := by
  have hregion : ∀ r ∈ c.regions n, (c.node r).parent = some n := fun r hr =>
    ((mem_regions h).mp hr).1
  -- Along the regions; what joins is inside `n`, hence together with it.
  have go : ∀ (l : List Nat), (∀ r ∈ l, r ∈ c.regions n) → ∀ s s', c.Partial s seeds a [n] →
      (n ∈ s ∨ ∀ r ∈ c.regions n, r ∈ seeds) →
      (∀ y ∈ s, c.isDescendant y a = true → c.Together y n) →
      l.foldlM (fun s r => if c.covers s r then some s else add r s) s = some s' →
      c.Partial s' seeds a [n] := by
    intro l
    induction l with
    | nil => intro _ s s' hp _ _ he; cases he; exact hp
    | cons r l ih =>
      intro hl s s' hp hup ht he
      have hr := hl r (by simp)
      simp only [List.foldlM_cons, Option.bind_eq_bind, Option.bind_eq_some_iff] at he
      obtain ⟨t, hst, he⟩ := he
      cases hcov : c.covers s r with
      | true =>
        rw [if_pos hcov] at hst; cases hst
        exact ih (fun r hr => hl r (by simp [hr])) s s' hp hup ht he
      | false =>
        rw [if_neg (by simp [hcov])] at hst
        have hg := hgrow r hr s t hst
        have hf := fresh_of_not_covers hcov
        refine ih (fun r hr => hl r (by simp [hr])) t s' ?_ (hup.imp (hg.kept n) id) ?_ he
        · refine hp.addBlock h hg (hadd r hr s t hf hst) hf (fun q hq => hq) (fun p he => ?_)
            fun y hy hya => (ht y hy hya).region h hpar (hregion r hr)
          rw [hregion r hr] at he; cases he
          rcases hup with hn | hseed
          · exact .inl (hg.kept n hn)
          · exact .inr ⟨r, hseed r hr, .refl r⟩
        · intro y hy hya
          rcases hg.gained y hy with hy | hyr
          · exact ht y hy hya
          · exact together_of_isDescendant h
              (h.within_isDescendant hyr (h.isDescendant_of_parent (hregion r hr)))
  have hpart := go (c.regions n) (fun _ hr => hr) s s' hp hup ht he
  refine { hpart with region := fun x hx hd _ hxp r hr => ?_ }
  by_cases hxn : x = n
  · subst hxn
    obtain ⟨h1, h2⟩ := addMissingRegions_spec h hgrow hadd he r hr
    cases hcov : c.covers s r with
    | true =>
      obtain ⟨y, hy, hw⟩ := covers_iff.mp hcov
      exact ⟨y, (h1 hcov y hw).mpr hy, hw⟩
    | false => exact ⟨r, (h2 hcov).mem, .refl r⟩
  · exact hpart.region x hx hd (by simpa using hxn) hxp r hr

end Partial

/-! ## Ancestors of seeds -/

section Climb

variable {names : Names} (h : c.Accepted names) {add : Nat → NodeSet → Option NodeSet}
  (hgrow : ∀ r, r < c.size → (c.node r).isHistory = false → ∀ s s', add r s = some s' →
    Grows (fun x => c.Within x r) s s')
  (hadd : ∀ r, r < c.size → (c.node r).isHistory = false → ∀ s s', c.Fresh s r →
    add r s = some s' → c.Complete s' r)
include h hgrow hadd

/-- The ancestors of a seed join, with the regions that parallel ones are missing. -/
theorem Partial.addAncestors {seeds : List Nat} {a q : Nat} (hq : q ∈ seeds)
    (hqa : c.isDescendant q a = true) {s s' : NodeSet} (hp : c.Partial s seeds a [])
    (hqs : q ∈ s) (he : c.addAncestors add a q s = some s') :
    c.Partial s' seeds a [] ∧ (∀ x ∈ s, x ∈ s') ∧
      ∀ x, c.isDescendant q x = true → c.isDescendant x a = true → x ∈ s' := by
  -- From any member `b` on the way up from the seed.
  have go : ∀ (b : Nat), c.isDescendant b a = true → c.Within q b → ∀ s s',
      c.Partial s seeds a [] → b ∈ s → c.addAncestors add a b s = some s' →
      c.Partial s' seeds a [] ∧ (∀ x ∈ s, x ∈ s') ∧
        ∀ x, c.isDescendant b x = true → c.isDescendant x a = true → x ∈ s' := by
    intro b
    induction b using Nat.strongRecOn with
    | ind b ih =>
      intro hba hqb s s' hp hb he
      obtain ⟨n, hn⟩ := h.exists_parent_of_isDescendant hba
      by_cases hna : n = a
      · subst hna
        rw [Chart.addAncestors, ancestorsUntil_of_child h.toIsTree hn] at he
        cases he
        refine ⟨hp, fun x hx => hx, fun x hbx hxa => ?_⟩
        exact absurd (h.within_isDescendant ((h.isDescendant_iff_parent hn).mp hbx) hxa)
          not_isDescendant_self
      · have hbn := h.isDescendant_of_parent hn
        have hna' : c.isDescendant n a = true := by
          rcases (h.isDescendant_iff_parent hn).mp hba with e | hna'
          · exact absurd e hna
          · exact hna'
        have hh : (c.node n).isHistory = false := by
          cases hh : (c.node n).isHistory with
          | false => rfl
          | true => exact absurd hbn (h.not_isDescendant_history hh)
        rw [Chart.addAncestors, ancestorsUntil_of_parent h.toIsTree hn hna] at he
        simp only [List.foldlM_cons, Option.bind_eq_bind, Option.bind_eq_some_iff] at he
        obtain ⟨t, ht, he⟩ := he
        have hins := hp.insertParent h.toIsTree hb hq hqb hba hn hh
        have hmem : n ∈ s.insert n := NodeSet.mem_insert.mpr (.inl rfl)
        have hkept : ∀ x ∈ s, x ∈ s.insert n := fun x hx => NodeSet.mem_insert.mpr (.inr hx)
        have hstep : c.Partial t seeds a [] ∧ ∀ x ∈ s.insert n, x ∈ t := by
          split at ht
          · rename_i hpar
            have hreg : ∀ r ∈ c.regions n, r < c.size ∧ (c.node r).isHistory = false :=
              fun r hr => region_plain h.toIsTree hr
            have hgrow' := fun r hr => hgrow r (hreg r hr).1 (hreg r hr).2
            refine ⟨hins.addMissingRegions h.toIsTree hpar hgrow'
              (fun r hr => hadd r (hreg r hr).1 (hreg r hr).2) (.inl hmem)
              (fun y hy hya => hins.together y hy n hmem hya hna') ht, ?_⟩
            refine (Grows.foldlM (P := fun _ => True) (fun r hr s s' he => ?_) ht).kept
            split at he
            · cases he; exact .refl _ _
            · exact (hgrow' r hr s s' he).mono fun _ _ => trivial
          · rename_i hpar
            cases ht
            refine ⟨{ hins with region := fun x hx hd _ hxp r hr => ?_ }, fun x hx => hx⟩
            by_cases hxn : x = n
            · subst hxn; exact absurd hxp hpar
            · exact hins.region x hx hd (by simpa using hxn) hxp r hr
        obtain ⟨hpt, hst⟩ := hstep
        obtain ⟨h1, h2, h3⟩ := ih n (isDescendant_iff.mp hbn).1 hna'
          (h.within_trans hqb (.inr hbn)) t s' hpt (hst n hmem) he
        refine ⟨h1, fun x hx => h2 x (hst x (hkept x hx)), fun x hbx hxa => ?_⟩
        rcases (h.isDescendant_iff_parent hn).mp hbx with rfl | hnx
        · exact h2 _ (hst _ hmem)
        · exact h3 x hnx hxa
  exact go q hqa (.refl q) s s' hp hqs he

theorem Partial.addAllAncestors {seeds : List Nat} {a : Nat} :
    ∀ {l : List Nat}, (∀ q ∈ l, q ∈ seeds) → (∀ q ∈ l, c.isDescendant q a = true) →
      ∀ {s s' : NodeSet}, c.Partial s seeds a [] → (∀ q ∈ l, q ∈ s) →
      l.foldlM (fun s q => c.addAncestors add a q s) s = some s' →
      c.Partial s' seeds a [] ∧ (∀ x ∈ s, x ∈ s') ∧ c.Reached s' l a
  | [], _, _, s, s', hp, _, he => by
    cases he
    exact ⟨hp, fun x hx => hx, fun q hq => absurd hq List.not_mem_nil⟩
  | q :: l, hseeds, hla, s, s', hp, hls, he => by
    simp only [List.foldlM_cons, Option.bind_eq_bind, Option.bind_eq_some_iff] at he
    obtain ⟨t, ht, he⟩ := he
    obtain ⟨h1, h2, h3⟩ := hp.addAncestors h hgrow hadd (hseeds q (by simp)) (hla q (by simp))
      (hls q (by simp)) ht
    obtain ⟨h4, h5, h6⟩ := Partial.addAllAncestors (fun q hq => hseeds q (by simp [hq]))
      (fun q hq => hla q (by simp [hq])) h1 (fun q hq => h2 q (hls q (by simp [hq]))) he
    refine ⟨h4, fun x hx => h5 x (h2 x hx), fun r hr x hrx hxa => ?_⟩
    rcases List.mem_cons.mp hr with rfl | hr
    · exact h5 x (h3 x hrx hxa)
    · exact h6 r hr x hrx hxa

end Climb

/-! ## Nothing missing -/

/-- Inside `a` the set holds all that an active `a` needs. -/
structure Filled (c : Chart) (s : NodeSet) (a : Nat) : Prop where
  not_history : ∀ x ∈ s, c.isDescendant x a = true → (c.node x).isHistory = false
  child : ∀ x, c.Within x a → (x ∈ s ∨ x = a) → (c.node x).isCompound = true →
    ∃ k ∈ s, (c.node k).parent = some x
  region : ∀ x, c.Within x a → (x ∈ s ∨ x = a) → (c.node x).isParallel = true →
    ∀ r ∈ c.regions x, r ∈ s
  parent : ∀ x ∈ s, c.isDescendant x a = true → ∀ p, (c.node x).parent = some p →
    p ∈ s ∨ p = a
  together : ∀ y ∈ s, ∀ z ∈ s, c.isDescendant y a = true → c.isDescendant z a = true →
    c.Together y z

theorem Filled.congr (h : c.IsTree) {s s' : NodeSet} {a : Nat} (hf : c.Filled s a)
    (he : ∀ x, c.isDescendant x a = true → (x ∈ s' ↔ x ∈ s)) : c.Filled s' a := by
  have hback : ∀ {x}, c.Within x a → (x ∈ s' ∨ x = a) → (x ∈ s ∨ x = a) := by
    intro x hw hx
    rcases hx with hx | hx
    · rcases hw with e | hd
      · exact .inr e
      · exact .inl ((he x hd).mp hx)
    · exact .inr hx
  refine ⟨?_, ?_, ?_, ?_, ?_⟩
  · exact fun x hx hd => hf.not_history x ((he x hd).mp hx) hd
  · intro x hw hx hc
    obtain ⟨k, hk, hp⟩ := hf.child x hw (hback hw hx) hc
    exact ⟨k, (he k (h.isDescendant_within (h.isDescendant_of_parent hp) hw)).mpr hk, hp⟩
  · intro x hw hx hp r hr
    have hrx := h.isDescendant_of_parent ((mem_regions h).mp hr).1
    exact (he r (h.isDescendant_within hrx hw)).mpr (hf.region x hw (hback hw hx) hp r hr)
  · intro x hx hd p hp
    rcases hf.parent x ((he x hd).mp hx) hd p hp with hm | hpa
    · rcases (h.isDescendant_iff_parent hp).mp hd with rfl | hpd
      · exact .inr rfl
      · exact .inl ((he p hpd).mpr hm)
    · exact .inr hpa
  · exact fun y hy z hz hya hza =>
      hf.together y ((he y hya).mp hy) z ((he z hza).mp hz) hya hza

theorem Complete.filled {s : NodeSet} {a : Nat} (hc : c.Complete s a) :
    c.Filled s a where
  not_history x hx hd := hc.not_history x hx (.inr hd)
  child x hw hx := hc.child x (hx.elim id fun e => e ▸ hc.mem) hw
  region x hw hx := hc.region x (hx.elim id fun e => e ▸ hc.mem) hw
  parent x hx hd p hp := .inl (hc.parent x hx hd p hp)
  together y hy z hz hya hza := hc.together y hy z hz (.inr hya) (.inr hza)

/-- Where all ancestors of the seeds are there, every member's ancestors are. -/
theorem Partial.mem_of_isDescendant (h : c.IsTree) {s : NodeSet} {seeds : List Nat} {a : Nat}
    (hp : c.Partial s seeds a []) (hr : c.Reached s seeds a) :
    ∀ {x y : Nat}, x ∈ s → c.isDescendant x y = true → c.isDescendant y a = true → y ∈ s := by
  intro x
  induction x using Nat.strongRecOn with
  | ind x ih =>
    intro y hx hxy hya
    have hxa := h.trans hxy hya
    obtain ⟨p, hpx⟩ := h.exists_parent_of_isDescendant hxy
    have hpy := (h.isDescendant_iff_parent hpx).mp hxy
    rcases hp.parent x hx hxa p hpx with hps | ⟨q, hq, hqx⟩
    · rcases hpy with rfl | hpy
      · exact hps
      · exact ih p (h.parent_lt hpx) hps hpy hya
    · exact hr q hq y (h.within_isDescendant hqx hxy) hya

/-- A set with all ancestors of its seeds is filled, given what `a` itself needs. -/
theorem Partial.filled (h : c.IsTree) {s : NodeSet} {seeds : List Nat} {a : Nat}
    (hp : c.Partial s seeds a []) (hr : c.Reached s seeds a)
    (hchild : (c.node a).isCompound = true → ∃ x ∈ s, c.isDescendant x a = true)
    (hregion : (c.node a).isParallel = true → ∀ r ∈ c.regions a, ∃ y ∈ s, c.Within y r) :
    c.Filled s a := by
  have hup : ∀ {x y}, x ∈ s → c.Within x y → c.isDescendant y a = true → y ∈ s := by
    intro x y hx hxy hya
    rcases hxy with rfl | hxy
    · exact hx
    · exact hp.mem_of_isDescendant h hr hx hxy hya
  refine ⟨hp.not_history, ?_, ?_, ?_, hp.together⟩
  · intro x hw hx hc
    rcases hw with rfl | hd
    · obtain ⟨y, hy, hyx⟩ := hchild hc
      obtain ⟨k, hk, hyk⟩ := h.exists_child hyx
      exact ⟨k, hup hy hyk (h.isDescendant_of_parent hk), hk⟩
    · rcases hx with hx | rfl
      · exact hp.child x hx hd hc
      · exact absurd hd not_isDescendant_self
  · intro x hw hx hpar r hreg
    have hrx := h.isDescendant_of_parent ((mem_regions h).mp hreg).1
    have hcov : ∃ y ∈ s, c.Within y r := by
      rcases hw with rfl | hd
      · exact hregion hpar r hreg
      · rcases hx with hx | rfl
        · exact hp.region x hx hd List.not_mem_nil hpar r hreg
        · exact absurd hd not_isDescendant_self
    obtain ⟨y, hy, hyr⟩ := hcov
    exact hup hy hyr (h.isDescendant_within hrx hw)
  · intro x hx hd p hpx
    rcases (h.isDescendant_iff_parent hpx).mp hd with rfl | hpa
    · exact .inr rfl
    · exact .inl (hup hx (.inr (h.isDescendant_of_parent hpx)) hpa)

end Statechart.Chart
