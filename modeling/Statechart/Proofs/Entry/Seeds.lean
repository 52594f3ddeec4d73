import Statechart.Proofs.Entry.Defaults
import Statechart.Proofs.Entry.Targets

/-!
# Where entries lead

The seeds of a transition are the states that its targets stand for. All of them are entered,
and so are the states on the way to them; and a compound state that is entered with no seed
inside gets its default child. Nothing else has a say in which child a compound state gets: not
the order of the transitions or of their targets, nor what else is in the set (`Led`).

* `entrySet_led`: the entry set of a set of transitions, whatever their domains are.
* `exists_entrySet`: in a well-formed chart there is an entry set if what is remembered can be
  entered.
-/
namespace Statechart.Chart

variable {c : Chart} {history : Dict (List Nat)}

/-- The states that the targets of a transition stand for. -/
def seeds (c : Chart) (history : Dict (List Nat)) (t : Nat) : List Nat :=
  (c.transition t).targets.flatMap (c.effectiveTargets history)

theorem mem_seeds {t q : Nat} :
    q ∈ c.seeds history t ↔ ∃ n ∈ (c.transition t).targets, q ∈ c.effectiveTargets history n :=
  List.mem_flatMap

theorem exists_domain_of_seed {t q : Nat} (hq : q ∈ c.seeds history t) :
    ∃ d, c.domain t = some d := by
  obtain ⟨n, hn, -⟩ := mem_seeds.mp hq
  have hne : (c.transition t).isTargetless = false := by
    rw [Transition.isTargetless, List.isEmpty_eq_false_iff]
    exact List.ne_nil_of_mem hn
  rw [domain, hne, if_neg Bool.false_ne_true]
  split <;> exact ⟨_, rfl⟩

/-- Seeds are inside the domain, or the root is the domain and a target. -/
theorem isDescendant_of_seed {names : Names} (h : c.Accepted names) (hr : c.Confined history)
    {t d q : Nat} (hs : (c.transition t).source < c.size) (hd : c.domain t = some d)
    (hq : q ∈ c.seeds history t) : c.isDescendant q d = true ∨ q = root ∧ d = root := by
  obtain ⟨n, hn, hqn⟩ := mem_seeds.mp hq
  obtain ⟨-, -, htargets⟩ := domain_spec h.toIsTree hd hs fun n hn => h.target_lt hn
  rcases htargets n hn with hnd | ⟨rfl, rfl⟩
  · exact .inl (effectiveTargets_isDescendant h (hr.inside d) hnd hqn)
  · rw [effectiveTargets_of_not_history (root_not_history h), List.mem_singleton] at hqn
    exact .inr ⟨hqn, rfl⟩

/-- A seed is inside the state, or its default child is in the set. -/
def Guided (c : Chart) (Q : Nat → Prop) (s : NodeSet) (x : Nat) : Prop :=
  (∃ q, Q q ∧ c.isDescendant q x = true) ∨ ∃ k ∈ s, (c.node x).initial = some k

/-- A set keeps its members, and the compound states that it gains are guided. -/
structure Led (c : Chart) (Q : Nat → Prop) (s s' : NodeSet) : Prop where
  kept : ∀ x ∈ s, x ∈ s'
  guided : ∀ x ∈ s', (c.node x).isCompound = true → x ∈ s ∨ c.Guided Q s' x

namespace Led

variable {Q : Nat → Prop} {s s' s'' : NodeSet}

theorem refl (c : Chart) (Q : Nat → Prop) (s : NodeSet) : c.Led Q s s :=
  ⟨fun _ hx => hx, fun _ hx _ => .inl hx⟩

theorem trans (h : c.Led Q s s') (h' : c.Led Q s' s'') : c.Led Q s s'' where
  kept x hx := h'.kept x (h.kept x hx)
  guided x hx hc := by
    rcases h'.guided x hx hc with hx | hx
    · refine (h.guided x hx hc).imp_right (Or.imp_right ?_)
      exact fun ⟨k, hk, hi⟩ => ⟨k, h'.kept k hk, hi⟩
    · exact .inr hx

theorem insert {n : Nat} (hn : (c.node n).isCompound = true → ∃ q, Q q ∧ c.isDescendant q n = true)
    (s : NodeSet) : c.Led Q s (s.insert n) where
  kept x hx := NodeSet.mem_insert.mpr (.inr hx)
  guided x hx hc := by
    rcases NodeSet.mem_insert.mp hx with rfl | hx
    · exact .inr (.inl (hn hc))
    · exact .inl hx

theorem foldlM {α : Type} {f : NodeSet → α → Option NodeSet} :
    ∀ {l : List α}, (∀ a ∈ l, ∀ s s', f s a = some s' → c.Led Q s s') →
      ∀ {s s'}, l.foldlM f s = some s' → c.Led Q s s'
  | [], _, s, s', h => by cases h; exact .refl c Q s
  | a :: l, hf, s, s', h => by
    simp only [List.foldlM_cons, Option.bind_eq_bind, Option.bind_eq_some_iff] at h
    obtain ⟨t, ht, h⟩ := h
    exact (hf a (by simp) s t ht).trans (foldlM (fun b hb => hf b (by simp [hb])) h)

theorem mem_foldlM {α : Type} {f : NodeSet → α → Option NodeSet} {a : α} {x : Nat}
    (hx : ∀ s s', f s a = some s' → x ∈ s') :
    ∀ {l : List α}, (∀ a ∈ l, ∀ s s', f s a = some s' → c.Led Q s s') → a ∈ l →
      ∀ {s s'}, l.foldlM f s = some s' → x ∈ s'
  | b :: l, hf, ha, s, s', h => by
    simp only [List.foldlM_cons, Option.bind_eq_bind, Option.bind_eq_some_iff] at h
    obtain ⟨t, ht, h⟩ := h
    replace hf : ∀ a ∈ l, ∀ s s', f s a = some s' → c.Led Q s s' := fun b hb => hf b (by simp [hb])
    rcases List.mem_cons.mp ha with rfl | ha
    · exact (foldlM hf h).kept x (hx s t ht)
    · exact mem_foldlM hx hf ha h

end Led

theorem Enterable.plainInitials (we : c.Enterable) (h : c.IsTree) : c.PlainInitials := by
  intro n hn hc k hk
  obtain ⟨l, hl, hr⟩ := we.initial n hn hc
  rw [hl] at hk
  cases hk
  exact ((mem_regions h).mp hr).2

section Led

variable {names : Names} (h : c.Accepted names) {Q : Nat → Prop}
include h

omit h in
theorem addMissingRegions_led {add : Nat → NodeSet → Option NodeSet} {n : Nat}
    (hadd : ∀ r ∈ c.regions n, ∀ s s', add r s = some s' → c.Led Q s s') {s s' : NodeSet}
    (he : c.addMissingRegions add n s = some s') : c.Led Q s s' := by
  refine Led.foldlM (fun r hr s s' he => ?_) he
  split at he
  · cases he; exact .refl c Q s
  · exact hadd r hr s s' he

theorem addAncestors_led {add : Nat → NodeSet → Option NodeSet} {d q : Nat} (hq : Q q)
    (hadd : ∀ n, ∀ r ∈ c.regions n, ∀ s s', add r s = some s' → c.Led Q s s') {s s' : NodeSet}
    (he : c.addAncestors add d q s = some s') :
    c.Led Q s s' ∧ ∀ a ∈ c.ancestorsUntil q (some d), a ∈ s' := by
  have hone : ∀ a ∈ c.ancestorsUntil q (some d), ∀ s s',
      (if (c.node a).isParallel then c.addMissingRegions add a (s.insert a)
        else some (s.insert a)) = some s' → c.Led Q s s' ∧ a ∈ s' := by
    intro a ha s s' he
    have hqa := (mem_ancestors h.toIsTree).mp ((List.takeWhile_prefix _).subset ha)
    have hins : c.Led Q s (s.insert a) := .insert (fun _ => ⟨q, hq, hqa⟩) s
    have hmem : a ∈ s.insert a := NodeSet.mem_insert.mpr (.inl rfl)
    split at he
    · have hregions := addMissingRegions_led (hadd a) he
      exact ⟨hins.trans hregions, hregions.kept a hmem⟩
    · cases he; exact ⟨hins, hmem⟩
  refine ⟨Led.foldlM (fun a ha s s' he => ?_) he, fun a ha =>
    Led.mem_foldlM (c := c) (Q := Q) (fun s s' he => ?_) (fun b hb s s' he => ?_) ha he⟩
  · exact (hone a ha s s' he).1
  · exact (hone a ha s s' he).2
  · exact (hone b hb s s' he).1

variable (we : c.Enterable)
include we

/-- A default entry adds its state, and compound states with their default children. -/
theorem addInside_led : ∀ (calls n : Nat), n < c.size → (c.node n).isHistory = false →
    ∀ s s', c.addInside history calls n s = some s' → c.Led Q s s' ∧ n ∈ s' := by
  intro calls
  induction calls with
  | zero => intro n _ _ s s' he; cases he
  | succ calls ih =>
    intro n hn hh s s' he
    have hmem : n ∈ s.insert n := NodeSet.mem_insert.mpr (.inl rfl)
    simp only [addInside, hh, Bool.false_eq_true, if_false] at he
    rcases Node.kind_cases hh with hl | hc | hpar
    · obtain ⟨hc, hp⟩ := Node.not_inner_of_leaf hl
      rw [hc, hp] at he
      cases he
      exact ⟨.insert (fun e => by rw [hc] at e; cases e) s, hmem⟩
    · obtain ⟨k, hi, hk⟩ := we.initial n hn hc
      obtain ⟨hp, hkh⟩ := (mem_regions h.toIsTree).mp hk
      simp only [hc, if_true, hi, Option.bind_eq_bind, Option.bind_eq_some_iff] at he
      obtain ⟨t, ht, he⟩ := he
      rw [addAncestors, ancestorsUntil_of_child h.toIsTree hp] at he
      cases he
      obtain ⟨hled, hkm⟩ := ih k (lt_size_of_parent hp) hkh _ _ ht
      refine ⟨⟨fun x hx => hled.kept x (NodeSet.mem_insert.mpr (.inr hx)), fun x hx hxc => ?_⟩,
        hled.kept n hmem⟩
      rcases hled.guided x hx hxc with hx | hx
      · rcases NodeSet.mem_insert.mp hx with rfl | hx
        · exact .inr (.inr ⟨k, hkm, hi⟩)
        · exact .inl hx
      · exact .inr hx
    · have hc : (c.node n).isCompound = false := by simp [Node.isCompound, beq_iff_eq.mp hpar]
      rw [hc, if_neg (by simp), if_pos hpar] at he
      have hled := addMissingRegions_led (Q := Q) (fun r hr s s' he =>
        (ih r (region_plain h.toIsTree hr).1 (region_plain h.toIsTree hr).2 s s' he).1) he
      exact ⟨(Led.insert (fun e => by rw [hc] at e; cases e) s).trans hled, hled.kept n hmem⟩

variable (hr : c.Restorable history)
include hr

theorem addTarget_led {calls n : Nat} (hn : n < c.size)
    (hq : ∀ q ∈ c.effectiveTargets history n, Q q) {s s' : NodeSet}
    (he : c.addInside history calls n s = some s') :
    c.Led Q s s' ∧ ∀ q ∈ c.effectiveTargets history n, q ∈ s' := by
  cases hh : (c.node n).isHistory with
  | false =>
    obtain ⟨hled, hmem⟩ := addInside_led (Q := Q) h we calls n hn hh s s' he
    rw [effectiveTargets_of_not_history hh]
    exact ⟨hled, fun q hq => List.mem_singleton.mp hq ▸ hmem⟩
  | true =>
    cases calls with
    | zero => cases he
    | succ calls =>
      obtain ⟨p, hp⟩ := h.exists_parent_of_history hh
      rw [effectiveTargets_of_history hh] at hq ⊢
      simp only [addInside, hh, if_true, hp, Option.bind_eq_bind, Option.bind_eq_some_iff] at he
      obtain ⟨t, ht, he⟩ := he
      -- What a history state stands for is entered as any other state.
      have hin : ∀ k, k < c.size → (c.node k).isHistory = false → ∀ s s',
          c.addInside history calls k s = some s' → c.Led Q s s' ∧ k ∈ s' :=
        fun k hk hkh => addInside_led h we calls k hk hkh
      have hone : ∀ k ∈ c.restored history n, ∀ s s',
          c.addInside history calls k s = some s' → c.Led Q s s' ∧ k ∈ s' := fun k hk =>
        hin k (h.lt_size ((hr n p hh hp).inside k hk).2) ((hr n p hh hp).inside k hk).1
      have htargets : c.Led Q s t := Led.foldlM (fun k hk s s' he => (hone k hk s s' he).1) ht
      have hancestors : c.Led Q t s' := Led.foldlM (fun k hk s s' he =>
        addAncestors_led h (hq k hk) (fun _ r hrn s s' he =>
          (hin r (region_plain h.toIsTree hrn).1 (region_plain h.toIsTree hrn).2 s s' he).1) he
            |>.1) he
      refine ⟨htargets.trans hancestors, fun q hqn => hancestors.kept q ?_⟩
      exact Led.mem_foldlM (fun s s' he => (hone q hqn s s' he).2)
        (fun k hk s s' he => (hone k hk s s' he).1) hqn ht

theorem addEntries_led {t : Nat} (hq : ∀ q ∈ c.seeds history t, Q q) {s s' : NodeSet}
    (he : c.addEntries history s t = some s') :
    c.Led Q s s' ∧ ∀ d, c.domain t = some d → ∀ q ∈ c.seeds history t,
      ∀ x ∈ q :: c.ancestorsUntil q (some d), x ∈ s' := by
  cases hd : c.domain t with
  | none =>
    simp only [addEntries, hd, Option.some.injEq] at he
    subst he
    exact ⟨.refl c Q s, fun _ he => absurd he (Option.some_ne_none _).symm⟩
  | some d =>
    simp only [addEntries, hd, enter, Option.bind_eq_bind, Option.bind_eq_some_iff] at he
    obtain ⟨s1, h1, s2, h2, h3⟩ := he
    have htarget : ∀ n ∈ (c.transition t).targets, ∀ s s',
        c.addInside history c.entryBound n s = some s' →
        c.Led Q s s' ∧ ∀ q ∈ c.effectiveTargets history n, q ∈ s' := fun n hn s s' he =>
      addTarget_led h we hr (h.target_lt hn)
        (fun q hqn => hq q (mem_seeds.mpr ⟨n, hn, hqn⟩)) he
    have hregion : ∀ n, ∀ r ∈ c.regions n, ∀ s s',
        c.addInside history c.entryBound r s = some s' → c.Led Q s s' := fun n r hrn s s' he =>
      (addInside_led h we _ r (region_plain h.toIsTree hrn).1 (region_plain h.toIsTree hrn).2 s s'
        he).1
    have htargets : c.Led Q s s1 := Led.foldlM (fun n hn s s' he => (htarget n hn s s' he).1) h1
    have hancestor : ∀ q ∈ c.seeds history t, ∀ s s',
        c.addAncestors (c.enter history) d q s = some s' →
        c.Led Q s s' ∧ ∀ a ∈ c.ancestorsUntil q (some d), a ∈ s' := fun q hqn s s' he =>
      addAncestors_led h (hq q hqn) hregion he
    have hancestors : c.Led Q s1 s2 := Led.foldlM (fun q hqn s s' he =>
      (hancestor q hqn s s' he).1) h2
    have hdomain : c.Led Q s2 s' := by
      split at h3
      · exact addMissingRegions_led (hregion d) h3
      · cases h3; exact .refl c Q _
    refine ⟨htargets.trans (hancestors.trans hdomain), fun e he q hqt x hx => hdomain.kept x ?_⟩
    cases he
    rcases List.mem_cons.mp hx with rfl | hx
    · obtain ⟨n, hn, hqn⟩ := mem_seeds.mp hqt
      exact hancestors.kept x
        (Led.mem_foldlM (Q := Q) (f := fun s n => c.addInside history c.entryBound n s)
          (fun s s' he => (htarget n hn s s' he).2 x hqn)
          (fun n hn s s' he => (htarget n hn s s' he).1) hn h1)
    · exact Led.mem_foldlM (Q := Q) (f := fun s q => c.addAncestors (c.enter history) d q s)
        (fun s s' he => (hancestor q hqt s s' he).2 x hx)
        (fun q hqt s s' he => (hancestor q hqt s s' he).1) hqt h2

/-- An entry set has all its seeds and what is between these and the domains, and its compound
states lead on to seeds or to their default children. -/
theorem entrySet_led {transitions : List Nat} {entries : NodeSet}
    (he : c.entrySet history transitions = some entries) :
    (∀ t ∈ transitions, ∀ d, c.domain t = some d → ∀ q ∈ c.seeds history t,
      ∀ x ∈ q :: c.ancestorsUntil q (some d), x ∈ entries) ∧
    ∀ x ∈ entries, (c.node x).isCompound = true →
      c.Guided (fun q => ∃ t ∈ transitions, q ∈ c.seeds history t) entries x := by
  have hone : ∀ t ∈ transitions, ∀ s s', c.addEntries history s t = some s' →
      c.Led (fun q => ∃ t ∈ transitions, q ∈ c.seeds history t) s s' ∧
        ∀ d, c.domain t = some d → ∀ q ∈ c.seeds history t,
          ∀ x ∈ q :: c.ancestorsUntil q (some d), x ∈ s' := fun t ht s s' he =>
    addEntries_led h we hr (fun q hq => ⟨t, ht, hq⟩) he
  have hled := fun t ht s s' he => (hone t ht s s' he).1
  refine ⟨fun t ht d hd q hq x hx => ?_, fun x hx hc => ?_⟩
  · exact Led.mem_foldlM (fun s s' he => (hone t ht s s' he).2 d hd q hq x hx) hled ht he
  · exact ((Led.foldlM hled he).guided x hx hc).resolve_left NodeSet.mem_empty.mp

end Led

/-! ## There is an entry set -/

section Exists

variable {names : Names} (h : c.Accepted names) (we : c.Enterable) {calls : Nat}
include h we

theorem exists_addPlain (hcalls : c.size < calls) {n : Nat} (hn : n < c.size)
    (hh : (c.node n).isHistory = false) (s : NodeSet) :
    ∃ s', c.addInside history calls n s = some s' :=
  exists_addInside h (we.plainInitials h.toIsTree) calls n hn hh (by omega) s

theorem exists_addRegion (hcalls : c.size < calls) (n : Nat) :
    ∀ r ∈ c.regions n, ∀ s, ∃ s', c.addInside history calls r s = some s' := fun _ hr =>
  exists_addPlain h we hcalls (region_plain h.toIsTree hr).1 (region_plain h.toIsTree hr).2

variable (hr : c.Restorable history)
include hr

theorem exists_addTarget (hcalls : c.size + 1 < calls) {n : Nat} (hn : n < c.size) (s : NodeSet) :
    ∃ s', c.addInside history calls n s = some s' := by
  cases hh : (c.node n).isHistory with
  | false => exact exists_addPlain h we (by omega) hn hh s
  | true =>
    obtain ⟨p, hp⟩ := h.exists_parent_of_history hh
    obtain ⟨calls, rfl⟩ : ∃ less, calls = less + 1 := ⟨calls - 1, by omega⟩
    have hcalls : c.size < calls := by omega
    have hinside := (hr n p hh hp).inside
    obtain ⟨t, ht⟩ := exists_foldlM (l := c.restored history n)
      (f := fun s k => c.addInside history calls k s)
      (fun k hk => exists_addPlain h we hcalls (h.lt_size (hinside k hk).2) (hinside k hk).1) s
    obtain ⟨s', hs'⟩ := exists_foldlM (l := c.restored history n)
      (f := fun s k => c.addAncestors (c.addInside history calls) p k s)
      (fun k _ => exists_addAncestors (exists_addRegion h we hcalls) p k) t
    refine ⟨s', ?_⟩
    simp only [addInside, hh, if_true, hp, ht]
    exact hs'

theorem exists_addEntries (t : Nat) (s : NodeSet) : ∃ s', c.addEntries history s t = some s' := by
  have hcalls : c.size + 1 < c.entryBound := by
    have := Nat.le_mul_of_pos_left (c.size + 1) h.size_pos
    unfold entryBound
    omega
  have hregion : ∀ n, ∀ r ∈ c.regions n, ∀ s,
      ∃ s', c.addInside history c.entryBound r s = some s' :=
    exists_addRegion h we (Nat.lt_of_succ_lt hcalls)
  unfold addEntries
  split
  · exact ⟨s, rfl⟩
  · rename_i d _
    obtain ⟨s1, h1⟩ := exists_foldlM (l := (c.transition t).targets)
      (f := fun s n => c.enter history n s)
      (fun n hn => exists_addTarget h we hr hcalls (h.target_lt hn)) s
    obtain ⟨s2, h2⟩ := exists_foldlM
      (l := (c.transition t).targets.flatMap (c.effectiveTargets history))
      (f := fun s n => c.addAncestors (c.enter history) d n s)
      (fun n _ => exists_addAncestors hregion d n) s1
    simp only [h1, h2, Option.bind_eq_bind, Option.bind_some]
    split
    · exact exists_addMissingRegions (hregion d) s2
    · exact ⟨s2, rfl⟩

/-- There is an entry set, if what is remembered can be entered. -/
theorem exists_entrySet (transitions : List Nat) :
    ∃ entries, c.entrySet history transitions = some entries :=
  exists_foldlM (fun t _ => exists_addEntries h we hr t) ∅

end Exists

end Statechart.Chart
