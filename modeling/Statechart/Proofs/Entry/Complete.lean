import Statechart.Proofs.Chart.WellFormed

/-!
# Default entries are complete

In a well-formed chart the default inside of a state is all that an active state needs: below
it every compound state has a child in the set, every parallel state all its regions, every
state its parent, and no compound state has states of the set in two children (`Complete`).

`addInside_complete` shows this for a state of which the set holds nothing yet. The regions
that a parallel state is missing are exactly of this kind, and the others stay as they are
(`addMissingRegions_spec`).
-/
namespace Statechart.Chart

variable {c : Chart}

/-- No member of the set is at or inside `n`. -/
def Fresh (c : Chart) (s : NodeSet) (n : Nat) : Prop := ∀ x ∈ s, ¬ c.Within x n

/-- What the set holds at and inside `n` is all that an active `n` needs. -/
structure Complete (c : Chart) (s : NodeSet) (n : Nat) : Prop where
  mem : n ∈ s
  not_history : ∀ x ∈ s, c.Within x n → (c.node x).isHistory = false
  child : ∀ x ∈ s, c.Within x n → (c.node x).isCompound = true →
    ∃ k ∈ s, (c.node k).parent = some x
  region : ∀ x ∈ s, c.Within x n → (c.node x).isParallel = true → ∀ r ∈ c.regions x, r ∈ s
  parent : ∀ x ∈ s, c.isDescendant x n = true → ∀ p, (c.node x).parent = some p → p ∈ s
  together : ∀ y ∈ s, ∀ z ∈ s, c.Within y n → c.Within z n → c.Together y z

theorem Complete.congr (h : c.IsTree) {s s' : NodeSet} {n : Nat} (hc : c.Complete s n)
    (he : ∀ x, c.Within x n → (x ∈ s' ↔ x ∈ s)) : c.Complete s' n where
  mem := (he n (.refl n)).mpr hc.mem
  not_history x hx hw := hc.not_history x ((he x hw).mp hx) hw
  child x hx hw hcomp := by
    obtain ⟨k, hk, hp⟩ := hc.child x ((he x hw).mp hx) hw hcomp
    exact ⟨k, (he k (h.within_trans (.inr (h.isDescendant_of_parent hp)) hw)).mpr hk, hp⟩
  region x hx hw hpar r hr := by
    have hp := ((mem_regions h).mp hr).1
    exact (he r (h.within_trans (.inr (h.isDescendant_of_parent hp)) hw)).mpr
      (hc.region x ((he x hw).mp hx) hw hpar r hr)
  parent x hx hd p hp :=
    (he p ((h.isDescendant_iff_parent hp).mp hd)).mpr
      (hc.parent x ((he x (.inr hd)).mp hx) hd p hp)
  together y hy z hz hyn hzn :=
    hc.together y ((he y hyn).mp hy) z ((he z hzn).mp hz) hyn hzn

theorem complete_of_leaf {names : Names} (h : c.Accepted names) {s : NodeSet} {n : Nat}
    (hl : (c.node n).isLeaf = true) (hh : (c.node n).isHistory = false) (hn : n ∈ s) :
    c.Complete s n := by
  have hself : ∀ {x}, c.Within x n → x = n := fun hw =>
    hw.elim id fun hd => absurd hd (h.not_isDescendant_leaf hl)
  refine ⟨hn, ?_, ?_, ?_, ?_, ?_⟩
  · intro x _ hw; rw [hself hw]; exact hh
  · intro x _ hw hc; rw [hself hw, (Node.not_inner_of_leaf hl).1] at hc; cases hc
  · intro x _ hw hp; rw [hself hw, (Node.not_inner_of_leaf hl).2] at hp; cases hp
  · intro x _ hd; exact absurd hd (h.not_isDescendant_leaf hl)
  · intro y _ z _ hy hz; rw [hself hy, hself hz]; exact .refl h.toIsTree n

theorem complete_of_child (h : c.IsTree) {s : NodeSet} {n k : Nat} (hn : n ∈ s)
    (hh : (c.node n).isHistory = false) (hcomp : (c.node n).isCompound = true)
    (hk : (c.node k).parent = some n) (hck : c.Complete s k)
    (honly : ∀ x ∈ s, c.isDescendant x n = true → c.Within x k) : c.Complete s n where
  mem := hn
  not_history x hx hw := by
    rcases hw with rfl | hd
    · exact hh
    · exact hck.not_history x hx (honly x hx hd)
  child x hx hw hc := by
    rcases hw with rfl | hd
    · exact ⟨k, hck.mem, hk⟩
    · exact hck.child x hx (honly x hx hd) hc
  region x hx hw hp := by
    rcases hw with rfl | hd
    · rw [Node.not_parallel_of_compound hcomp] at hp; cases hp
    · exact hck.region x hx (honly x hx hd) hp
  parent x hx hd p hp := by
    rcases honly x hx hd with rfl | hxk
    · rw [hk] at hp; cases hp; exact hn
    · exact hck.parent x hx hxk p hp
  together y hy z hz hyn hzn := by
    rcases hyn with rfl | hyn
    · rcases hzn with rfl | hzn
      · exact .refl h _
      · exact (together_of_isDescendant h hzn).symm
    · rcases hzn with rfl | hzn
      · exact together_of_isDescendant h hyn
      · exact hck.together y hy z hz (honly y hy hyn) (honly z hz hzn)

theorem complete_of_regions (h : c.IsTree) {s : NodeSet} {n : Nat} (hn : n ∈ s)
    (hh : (c.node n).isHistory = false) (hpar : (c.node n).isParallel = true)
    (hall : ∀ r ∈ c.regions n, c.Complete s r)
    (honly : ∀ x ∈ s, c.isDescendant x n = true → ∃ r ∈ c.regions n, c.Within x r) :
    c.Complete s n where
  mem := hn
  not_history x hx hw := by
    rcases hw with rfl | hd
    · exact hh
    · obtain ⟨r, hr, hxr⟩ := honly x hx hd
      exact (hall r hr).not_history x hx hxr
  child x hx hw hc := by
    rcases hw with rfl | hd
    · rw [Node.not_parallel_of_compound hc] at hpar; cases hpar
    · obtain ⟨r, hr, hxr⟩ := honly x hx hd
      exact (hall r hr).child x hx hxr hc
  region x hx hw hp := by
    rcases hw with rfl | hd
    · exact fun r hr => (hall r hr).mem
    · obtain ⟨r, hr, hxr⟩ := honly x hx hd
      exact (hall r hr).region x hx hxr hp
  parent x hx hd p hp := by
    obtain ⟨r, hr, rfl | hxr⟩ := honly x hx hd
    · rw [((mem_regions h).mp hr).1] at hp; cases hp; exact hn
    · exact (hall r hr).parent x hx hxr p hp
  together y hy z hz hyn hzn := by
    rcases hyn with rfl | hyn
    · rcases hzn with rfl | hzn
      · exact .refl h _
      · exact (together_of_isDescendant h hzn).symm
    · rcases hzn with rfl | hzn
      · exact together_of_isDescendant h hyn
      · obtain ⟨r, hr, hyr⟩ := honly y hy hyn
        obtain ⟨q, hq, hzq⟩ := honly z hz hzn
        have hrp := ((mem_regions h).mp hr).1
        have hqp := ((mem_regions h).mp hq).1
        by_cases hrq : r = q
        · subst hrq; exact (hall r hr).together y hy z hz hyr hzq
        · -- From a region to its parallel parent, and from there into the other region.
          have hyn' : c.Together y n := together_of_isDescendant h hyn
          exact (hyn'.region h hpar hqp).down h (fun hyq => hrq (h.child_unique hrp hqp hyr hyq)) hzq

/-! ## Missing regions -/

theorem covers_iff {s : NodeSet} {n : Nat} : c.covers s n = true ↔ ∃ x ∈ s, c.Within x n := by
  simp [covers, NodeSet.any, NodeSet.mem_def, Within]

theorem fresh_of_not_covers {s : NodeSet} {n : Nat} (h : c.covers s n = false) : c.Fresh s n :=
  fun x hx hw => by rw [covers_iff.mpr ⟨x, hx, hw⟩] at h; cases h

/-- Regions with something in the set stay as they are, the others become complete. -/
theorem addMissingRegions_spec (h : c.IsTree) {add : Nat → NodeSet → Option NodeSet} {n : Nat}
    (hgrow : ∀ r ∈ c.regions n, ∀ s s', add r s = some s' → Grows (fun x => c.Within x r) s s')
    (hadd : ∀ r ∈ c.regions n, ∀ s s', c.Fresh s r → add r s = some s' → c.Complete s' r)
    {s s' : NodeSet} (he : c.addMissingRegions add n s = some s') :
    ∀ r ∈ c.regions n,
      (c.covers s r = true → ∀ x, c.Within x r → (x ∈ s' ↔ x ∈ s)) ∧
      (c.covers s r = false → c.Complete s' r) := by
  -- Over any part of the regions: regions not in that part do not change either.
  have go : ∀ (l : List Nat), l.Nodup → (∀ r ∈ l, r ∈ c.regions n) → ∀ s s',
      l.foldlM (fun s r => if c.covers s r then some s else add r s) s = some s' →
      (∀ r ∈ c.regions n, r ∉ l → ∀ x, c.Within x r → (x ∈ s' ↔ x ∈ s)) ∧
      ∀ r ∈ l, (c.covers s r = true → ∀ x, c.Within x r → (x ∈ s' ↔ x ∈ s)) ∧
        (c.covers s r = false → c.Complete s' r) := by
    intro l
    induction l with
    | nil =>
      intro _ _ s s' he
      cases he
      exact ⟨fun _ _ _ _ _ => Iff.rfl, fun r hr => absurd hr List.not_mem_nil⟩
    | cons q l ih =>
      intro hnd hl s s' he
      obtain ⟨hq, hnd⟩ := List.nodup_cons.mp hnd
      have hqr := hl q (by simp)
      simp only [List.foldlM_cons, Option.bind_eq_bind, Option.bind_eq_some_iff] at he
      obtain ⟨t, ht, he⟩ := he
      obtain ⟨hout, hin⟩ := ih hnd (fun r hr => hl r (by simp [hr])) t s' he
      have hsame : ∀ r ∈ c.regions n, r ≠ q → ∀ x, c.Within x r → (x ∈ t ↔ x ∈ s) := by
        intro r hr hne x hx
        split at ht
        · cases ht; exact Iff.rfl
        · have hg := hgrow q hqr s t ht
          refine ⟨fun hxt => (hg.gained x hxt).elim id fun hxq => ?_, hg.kept x⟩
          exact absurd (h.child_unique ((mem_regions h).mp hr).1 ((mem_regions h).mp hqr).1 hx hxq) hne
      refine ⟨fun r hr hrl x hx => ?_, fun r hr => ?_⟩
      · simp only [List.mem_cons, not_or] at hrl
        rw [hout r hr hrl.2 x hx, hsame r hr hrl.1 x hx]
      · by_cases hrq : r = q
        · subst hrq
          refine ⟨fun hcov x hx => ?_, fun hcov => ?_⟩
          · rw [if_pos hcov] at ht; cases ht
            exact hout r hqr hq x hx
          · rw [if_neg (by simp [hcov])] at ht
            exact (hadd r hqr s t (fresh_of_not_covers hcov) ht).congr h (hout r hqr hq)
        · have hrl : r ∈ l := (List.mem_cons.mp hr).resolve_left hrq
          have hrr := hl r hr
          have hcov : c.covers t r = c.covers s r := by
            rw [Bool.eq_iff_iff, covers_iff, covers_iff]
            exact ⟨fun ⟨x, hx, hw⟩ => ⟨x, (hsame r hrr hrq x hw).mp hx, hw⟩,
              fun ⟨x, hx, hw⟩ => ⟨x, (hsame r hrr hrq x hw).mpr hx, hw⟩⟩
          obtain ⟨h1, h2⟩ := hin r hrl
          rw [hcov] at h1 h2
          exact ⟨fun hc x hx => (h1 hc x hx).trans (hsame r hrr hrq x hx), h2⟩
  intro r hr
  exact (go (c.regions n) (regions_nodup h n) (fun _ hr => hr) s s' he).2 r hr

/-! ## Default entries -/

section Default

variable {names : Names} {history : Dict (List Nat)} (h : c.Accepted names) (we : c.Enterable)
  (hr : c.Confined history)
include h we hr

/-- The default inside of a state that is new to the set is complete. -/
theorem addInside_complete :
    ∀ (calls n : Nat), n < c.size → (c.node n).isHistory = false → ∀ s s', c.Fresh s n →
      c.addInside history calls n s = some s' → c.Complete s' n := by
  intro calls
  induction calls with
  | zero => intro n _ _ s s' _ he; cases he
  | succ calls ih =>
    intro n hn hh s s' hfresh he
    have hgrow := fun k hk => addInside_grows h hr calls k hk
    simp only [addInside, hh, Bool.false_eq_true, if_false] at he
    have hins : n ∈ s.insert n := NodeSet.mem_insert.mpr (.inl rfl)
    have hnew : ∀ x ∈ s.insert n, ¬ c.isDescendant x n = true := by
      intro x hx hd
      rcases NodeSet.mem_insert.mp hx with rfl | hx
      · exact not_isDescendant_self hd
      · exact hfresh x hx (.inr hd)
    rcases Node.kind_cases hh with hl | hcomp | hpar
    · rw [(Node.not_inner_of_leaf hl).1, (Node.not_inner_of_leaf hl).2] at he
      cases he
      exact complete_of_leaf h hl hh hins
    · obtain ⟨k, hi, hk⟩ := we.initial n hn hcomp
      obtain ⟨hp, hkh⟩ := (mem_regions h.toIsTree).mp hk
      have hkn := h.isDescendant_of_parent hp
      simp only [hcomp, if_true, hi, Option.bind_eq_bind, Option.bind_eq_some_iff] at he
      obtain ⟨t, ht, he⟩ := he
      rw [addAncestors, ancestorsUntil_of_child h.toIsTree hp] at he
      cases he
      have hg := hgrow k (h.lt_size hkn) _ _ ht
      have hfk : c.Fresh (s.insert n) k := fun x hx hw =>
        hnew x hx (h.within_isDescendant hw hkn)
      refine complete_of_child h.toIsTree (hg.kept n hins) hh hcomp hp
        (ih k (h.lt_size hkn) hkh _ _ hfk ht) fun x hx hd => ?_
      rcases hg.gained x hx with hx | hx
      · exact absurd hd (hnew x hx)
      · exact (brings_of_not_history hkh).mp hx
    · rw [if_neg (by simp [Node.isCompound, beq_iff_eq.mp hpar]), if_pos hpar] at he
      have hreg : ∀ r ∈ c.regions n, r < c.size ∧ (c.node r).isHistory = false := fun r hr =>
        region_plain h.toIsTree hr
      have hspec := addMissingRegions_spec h.toIsTree
        (fun r hr s s' he => (hgrow r (hreg r hr).1 s s' he).mono fun x hx =>
          (brings_of_not_history (hreg r hr).2).mp hx)
        (fun r hr s s' hf he => ih r (hreg r hr).1 (hreg r hr).2 s s' hf he) he
      have hg := addMissingRegions_grows h (fun r hr => hgrow r (hreg r hr).1) he
      refine complete_of_regions h.toIsTree (hg.kept n hins) hh hpar (fun r hr => ?_)
        fun x hx hd => ?_
      · refine (hspec r hr).2 (Bool.not_eq_true _ ▸ fun hcov => ?_)
        obtain ⟨x, hx, hw⟩ := covers_iff.mp hcov
        exact hnew x hx (h.within_isDescendant hw
          (h.isDescendant_of_parent ((mem_regions h.toIsTree).mp hr).1))
      · rcases hg.gained x hx with hx | hx
        · exact absurd hd (hnew x hx)
        · exact hx

end Default

end Statechart.Chart
