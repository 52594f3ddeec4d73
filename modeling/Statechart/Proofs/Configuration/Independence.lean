import Statechart.Proofs.Configuration.Notes
import Statechart.Proofs.Configuration.Reachable
import Statechart.Proofs.Entry.Seeds

/-!
# Transitions that are apart do not interfere

What a legal configuration has inside the domain of a transition follows from the seeds of the
transition alone: at every compound state on the way down there is a seed to go towards, or
else the default child (`Settled`). Seeds are inside the domain of their transition, and what
history states inside a domain remember is noted when states inside that domain are left. So if
no domain contains another, each transition leads to the same inside its own domain, whether the
others are taken before it, with it, or after it.

* `Legal.subset_inside`: configurations that go the same way down are the same.
* `Turned`: what is known after a set of transitions; it does not depend on their order
  (`Turned.unique`), and one more transition can be taken in the same microstep or in the next
  (`Turned.snoc`).
* `Sound.independent`: all orders lead to the same configuration and the same history, and so
  does one transition at a time.
-/
namespace Statechart.Chart

variable {c : Chart} {a b : NodeSet} {d : Nat} {Q : Nat → Prop}

/-! ## Going down -/

/-- What is active inside a state is active in a configuration that goes the same way down. -/
theorem Legal.subset_inside {names : Names} (h : c.Accepted names) (ha : c.Legal a)
    (hb : c.Legal b) (hd : d ∈ b)
    (hway : ∀ x ∈ a, x ∈ b → c.Within x d → (c.node x).isCompound = true →
      ∃ k ∈ a, k ∈ b ∧ (c.node k).parent = some x) :
    ∀ {x : Nat}, c.Within x d → x ∈ a → x ∈ b := by
  refine h.induct_within (P := fun x => x ∈ a → x ∈ b) (fun _ => hd) fun x p hp hpd ih hx => ?_
  have hpa := ha.parent_mem x hx p hp
  rcases inner_of_parent h hp with hc | hpar
  · obtain ⟨k, hka, hkb, hkp⟩ := hway p hpa (ih hpa) hpd hc
    rwa [ha.child_unique h.toIsTree hc hx hka hp hkp]
  · exact hb.region p (ih hpa) hpar x ((mem_regions h.toIsTree).mpr ⟨hp, ha.not_history x hx⟩)

/-- What is active inside a state follows from seeds. -/
structure Settled (c : Chart) (a : NodeSet) (d : Nat) (Q : Nat → Prop) : Prop where
  mem : d ∈ a
  seed : ∀ q, Q q → q ∈ a
  guided : ∀ x ∈ a, c.Within x d → (c.node x).isCompound = true → c.Guided Q a x

section Agree

variable {names : Names} (h : c.Accepted names) (ha : c.Legal a) (hb : c.Legal b)
include h ha hb

theorem Settled.subset (hsa : c.Settled a d Q) (hsb : c.Settled b d Q) {x : Nat}
    (hw : c.Within x d) (hx : x ∈ a) : x ∈ b := by
  refine ha.subset_inside h hb hsb.mem (fun y hya hyb hyd hc => ?_) hw hx
  have towards : ∀ q, Q q → c.isDescendant q y = true →
      ∃ k ∈ a, k ∈ b ∧ (c.node k).parent = some y := by
    intro q hq hqy
    obtain ⟨k, hk, hqk⟩ := h.exists_child hqy
    exact ⟨k, ha.mem_of_within h.toIsTree (hsa.seed q hq) hqk,
      hb.mem_of_within h.toIsTree (hsb.seed q hq) hqk, hk⟩
  rcases hsa.guided y hya hyd hc with ⟨q, hq, hqy⟩ | ⟨k, hka, hi⟩
  · exact towards q hq hqy
  · rcases hsb.guided y hyb hyd hc with ⟨q, hq, hqy⟩ | ⟨l, hlb, hj⟩
    · exact towards q hq hqy
    · rw [hi] at hj
      cases hj
      exact ⟨k, hka, hlb, h.parent_of_initial hi⟩

/-- Two legal configurations with the same seeds are the same inside. -/
theorem Settled.agree (hsa : c.Settled a d Q) (hsb : c.Settled b d Q) {x : Nat}
    (hw : c.Within x d) : x ∈ a ↔ x ∈ b :=
  ⟨hsa.subset h ha hb hsb hw, hsb.subset h hb ha hsa hw⟩

end Agree

section Congr

variable {names : Names} (h : c.Accepted names)
include h

theorem Settled.congr {R : Nat → Prop} (hs : c.Settled a d Q) (hQ : ∀ q, R q ↔ Q q)
    (hin : ∀ q, Q q → c.Within q d) (hab : ∀ x, c.Within x d → (x ∈ b ↔ x ∈ a)) :
    c.Settled b d R where
  mem := (hab d (.refl d)).mpr hs.mem
  seed q hq := (hab q (hin q ((hQ q).mp hq))).mpr (hs.seed q ((hQ q).mp hq))
  guided x hx hw hc := by
    rcases hs.guided x ((hab x hw).mp hx) hw hc with ⟨q, hq, hqx⟩ | ⟨k, hk, hi⟩
    · exact .inl ⟨q, (hQ q).mpr hq, hqx⟩
    · have hkx := h.isDescendant_of_parent (h.parent_of_initial hi)
      exact .inr ⟨k, (hab k (.inr (h.isDescendant_within hkx hw))).mpr hk, hi⟩

/-- Inside the domain of a transition only its own seeds matter. -/
theorem Guided.of_apart {history : Dict (List Nat)} (hr : c.Confined history)
    {transitions : List Nat} (hs : ∀ t ∈ transitions, (c.transition t).source < c.size)
    (hap : transitions.Pairwise c.Apart) {t : Nat} (ht : t ∈ transitions)
    (hd : c.domain t = some d) {x : Nat} (hx : c.Within x d)
    (hg : c.Guided (fun q => ∃ u ∈ transitions, q ∈ c.seeds history u) a x) :
    c.Guided (· ∈ c.seeds history t) a x := by
  refine hg.imp_left fun ⟨q, ⟨u, hu, hq⟩, hqx⟩ => ⟨q, ?_, hqx⟩
  by_cases htu : t = u
  · rwa [htu]
  · obtain ⟨e, he⟩ := exists_domain_of_seed hq
    have hqd : c.Within q d := .inr (h.isDescendant_within hqx hx)
    have hqe : c.Within q e :=
      (isDescendant_of_seed h hr (hs u hu) he hq).elim .inr fun ⟨e1, e2⟩ => .inl (e1.trans e2.symm)
    obtain ⟨n1, n2⟩ := hap.forall ht hu htu d e hd he
    exact ((h.within_total hqd hqe).elim n1 n2).elim

end Congr

/-! ## After a set of transitions -/

variable {history later : Dict (List Nat)} {transitions : List Nat}

theorem exitSet_congr {l m : List Nat} (hlm : ∀ t, t ∈ l ↔ t ∈ m) :
    c.exitSet a l = c.exitSet a m :=
  NodeSet.ext fun x => by simp only [mem_exitSet, hlm]

theorem mem_exitSet_singleton {t x : Nat} : x ∈ c.exitSet a [t] ↔
    x ∈ a ∧ ∃ d, c.domain t = some d ∧ c.isDescendant x d = true := by
  rw [mem_exitSet]
  simp only [List.mem_singleton, exists_eq_left]

/-- What is known after a set of transitions was taken. -/
structure Turned (c : Chart) (a : NodeSet) (history : Dict (List Nat)) (transitions : List Nat)
    (b : NodeSet) (later : Dict (List Nat)) : Prop where
  legal : c.Legal b
  history_eq : later = c.historyAfter a (c.exitSet a transitions) history
  outside : ∀ x, (∀ t ∈ transitions, ∀ d, c.domain t = some d → ¬ c.isDescendant x d = true) →
    (x ∈ b ↔ x ∈ a)
  settled : ∀ t ∈ transitions, ∀ d, c.domain t = some d → c.Settled b d (· ∈ c.seeds later t)

section Turned

variable {names : Names} (h : c.Accepted names) (wf : c.WellFormed)
include h wf

/-- Transitions that are apart can be taken, and what they lead to is known. -/
theorem Sound.exists_taken (hx : c.Sound a history) (hsel : c.Selected a transitions) :
    ∃ b later, c.taken transitions (a, history) = some (b, later) ∧ c.Sound b later ∧
      c.Turned a history transitions b later := by
  have hsource := hsel.source_lt h hx.legal.lt_size
  have hrec : c.Remembers (c.historyAfter a (c.exitSet a transitions) history) :=
    hx.remembers.recordHistory (x := .bare a history) h wf.enterable hx.legal _ fun n hn =>
      (mem_exitSet.mp hn).1
  have hrest := hrec.restorable h wf.enterable
  obtain ⟨entries, he⟩ := exists_entrySet h wf.enterable hrest transitions
  obtain ⟨hex, -⟩ := Sound.exchange_of_selected (x := .bare a history) h wf hx hsel he
  obtain ⟨hseeds, hguided⟩ := entrySet_led h wf.enterable hrest he
  have hlegal := hex.legal_next h
  refine ⟨_, _, by rw [taken, he]; rfl, ⟨hlegal, hrec⟩, hlegal, rfl, fun x hout =>
    hex.mem_outside hout fun _ => hx.legal.root_mem, fun t ht d hd => ⟨hex.domain_mem h ht hd,
      fun q hq => (hex.mem_next q).mpr (.inr (hseeds t ht d hd q hq q List.mem_cons_self)),
        fun x hxm hxd hc => ?_⟩⟩
  have hentered : x ∈ entries → c.Guided (· ∈ c.seeds _ t) _ x := fun hxe => by
    refine (Guided.of_apart h hrest.confined hsource hsel.apart ht hd hxd
      (hguided x hxe hc)).imp_right fun ⟨k, hk, hi⟩ => ⟨k, (hex.mem_next k).mpr (.inr hk), hi⟩
  rcases hex.mem_within ht hd hxd hxm with hxe | rfl
  · exact hentered hxe
  · -- The domain itself is not entered, unless it is the root as its own target.
    obtain ⟨q, hq⟩ := exists_effective h hrest hd
    rcases isDescendant_of_seed h hrest.confined (hsource t ht) hd hq with hqd | ⟨rfl, rfl⟩
    · exact .inl ⟨q, hq, hqd⟩
    · exact hentered (hseeds t ht _ hd _ hq _ List.mem_cons_self)

omit wf in
/-- What a set of transitions leads to does not depend on their order. -/
theorem Turned.unique {l m : List Nat} {b' : NodeSet} {later' : Dict (List Nat)}
    (hl : c.Turned a history l b later) (hm : c.Turned a history m b' later')
    (hlm : ∀ t, t ∈ l ↔ t ∈ m) : b = b' ∧ later = later' := by
  obtain rfl : later = later' := by
    rw [hl.history_eq, hm.history_eq, exitSet_congr hlm]
  refine ⟨NodeSet.ext fun x => ?_, rfl⟩
  -- Inside a domain the seeds decide, and outside of all domains nothing has changed.
  by_cases hin : ∃ t ∈ l, ∃ d, c.domain t = some d ∧ c.isDescendant x d = true
  · obtain ⟨t, ht, d, hd, hxd⟩ := hin
    exact (hl.settled t ht d hd).agree h hl.legal hm.legal
      (hm.settled t ((hlm t).mp ht) d hd) (.inr hxd)
  · have hout : ∀ t ∈ l, ∀ d, c.domain t = some d → ¬ c.isDescendant x d = true :=
      fun t ht d hd hxd => hin ⟨t, ht, d, hd, hxd⟩
    rw [hl.outside x hout, hm.outside x fun t ht => hout t ((hlm t).mpr ht)]

end Turned

/-! ## One transition at a time -/

theorem exitSet_of_targetless (h : ∀ t ∈ transitions, c.domain t = none) (a : NodeSet) :
    c.exitSet a transitions = ∅ := by
  refine NodeSet.ext fun x => ?_
  rw [mem_exitSet]
  refine ⟨fun ⟨_, t, ht, d, hd, _⟩ => ?_, fun hx => absurd hx NodeSet.mem_empty.mp⟩
  rw [h t ht] at hd
  cases hd

/-- Transitions without targets change nothing. -/
theorem Turned.of_targetless (ha : c.Legal a) (history : Dict (List Nat))
    (h : ∀ t ∈ transitions, c.domain t = none) : c.Turned a history transitions a history := by
  refine ⟨ha, ?_, fun _ _ => Iff.rfl, fun t ht d hd => ?_⟩
  · rw [exitSet_of_targetless h]; rfl
  · rw [h t ht] at hd; cases hd

theorem taken_of_targetless {t : Nat} (ht : c.domain t = none) (a : NodeSet)
    (history : Dict (List Nat)) : c.taken [t] (a, history) = some (a, history) := by
  have hnone : ∀ u ∈ [t], c.domain u = none := fun u hu => List.mem_singleton.mp hu ▸ ht
  have he : ∀ history, c.entrySet history [t] = some ∅ := fun history => by
    rw [entrySet, List.foldlM_cons, addEntries, ht]; rfl
  rw [taken, exitSet_of_targetless hnone, he]
  rfl

section Snoc

variable {names : Names} (h : c.Accepted names) (wf : c.WellFormed) {t : Nat}
  (hsel : c.Selected a (transitions ++ [t]))
include h hsel

theorem Selected.not_within {u e x : Nat} (hu : u ∈ transitions) (he : c.domain u = some e)
    (hd : c.domain t = some d) (hxe : c.Within x e) : ¬ c.Within x d := fun hxd => by
  obtain ⟨n1, n2⟩ := (List.pairwise_append.mp hsel.apart).2.2 u hu t (List.mem_singleton_self t)
    e d he hd
  exact (h.within_total hxe hxd).elim n1 n2

theorem Turned.mem_last (hl : c.Turned a history transitions b later) {x : Nat}
    (hd : c.domain t = some d) (hx : c.Within x d) : x ∈ b ↔ x ∈ a :=
  hl.outside x fun _ hu _ he hxe => hsel.not_within h hu he hd (.inr hxe) hx

theorem Turned.mem_exitSet_last (hl : c.Turned a history transitions b later) {x : Nat} :
    x ∈ c.exitSet a (transitions ++ [t]) ↔
      x ∈ c.exitSet a transitions ∨ x ∈ c.exitSet b [t] := by
  simp only [mem_exitSet, List.mem_append, List.mem_singleton]
  constructor
  · rintro ⟨hx, u, hu | rfl, e, he, hxe⟩
    · exact .inl ⟨hx, u, hu, e, he, hxe⟩
    · exact .inr ⟨(hl.mem_last h hsel he (.inr hxe)).mpr hx, u, rfl, e, he, hxe⟩
  · rintro (⟨hx, u, hu, e, he, hxe⟩ | ⟨hx, u, rfl, e, he, hxe⟩)
    · exact ⟨hx, u, .inl hu, e, he, hxe⟩
    · exact ⟨(hl.mem_last h hsel he (.inr hxe)).mp hx, u, .inr rfl, e, he, hxe⟩

theorem Turned.selected_last (hin : ∀ n ∈ a, n < c.size)
    (hl : c.Turned a history transitions b later) (hd : c.domain t = some d) :
    c.Selected b [t] where
  picked u hu := by
    obtain rfl := List.mem_singleton.mp hu
    obtain ⟨leaf, hleaf, hlf, hw⟩ := hsel.picked u (by simp)
    have hsource := hsel.source_lt h hin u (by simp)
    have hwd := (domain_spec h.toIsTree hd hsource fun n hn => h.target_lt hn).1
    exact ⟨leaf, (hl.mem_last h hsel hd (h.within_trans hw hwd)).mpr hleaf, hlf, hw⟩
  apart := List.pairwise_singleton _ _

/-- What is noted for the last transition is of no concern to the others. -/
theorem Turned.seeds_eq {b' : NodeSet} {later' : Dict (List Nat)}
    (hin : ∀ n ∈ a, n < c.size) (ht : c.Turned b later [t] b' later') {u e : Nat}
    (hu : u ∈ transitions) (he : c.domain u = some e) : c.seeds later' u = c.seeds later u := by
  have hsource := hsel.source_lt h hin u (by simp [hu])
  obtain ⟨-, -, htargets⟩ := domain_spec h.toIsTree he hsource fun n hn => h.target_lt hn
  refine List.flatMap_congr fun n hn => ?_
  cases hh : (c.node n).isHistory with
  | false => rw [effectiveTargets_of_not_history hh, effectiveTargets_of_not_history hh]
  | true =>
    obtain ⟨p, hp⟩ := h.exists_parent_of_history hh
    have hpe : c.Within p e := by
      rcases htargets n hn with hne | ⟨rfl, -⟩
      · exact (h.isDescendant_iff_parent hp).mp hne
      · rw [root_not_history h] at hh; cases hh
    rw [effectiveTargets_of_history hh, effectiveTargets_of_history hh, restored, restored,
      ht.history_eq, get?_historyAfter_of_not_mem h hp fun hpx => ?_]
    obtain ⟨-, d, hd, hpd⟩ := mem_exitSet_singleton.mp hpx
    exact hsel.not_within h hu he hd hpe (.inr hpd)

include wf

/-- One more transition can be taken in the same microstep or in the next. -/
theorem Turned.snoc {b' : NodeSet} {later' : Dict (List Nat)} (hx : c.Sound a history)
    (hs : history.Sorted) (hlater : c.Remembers later)
    (hl : c.Turned a history transitions b later) (ht : c.Turned b later [t] b' later') :
    c.Turned a history (transitions ++ [t]) b' later' where
  legal := ht.legal
  history_eq := by
    rw [ht.history_eq, hl.history_eq]
    refine historyAfter_historyAfter h hs (fun n => hl.mem_exitSet_last h hsel) fun n hn mode => ?_
    obtain ⟨-, d, hd, hnd⟩ := mem_exitSet_singleton.mp hn
    exact remembered_congr h.toIsTree (fun x hxn =>
      hl.mem_last h hsel hd (.inr (h.trans hxn hnd))) mode
  outside x hout := by
    rw [ht.outside x fun u hu => hout u (List.mem_append_right _ hu),
      hl.outside x fun u hu => hout u (List.mem_append_left _ hu)]
  settled u hu e he := by
    rcases List.mem_append.mp hu with hul | hul
    · -- The domains of the others are as they were, and so are their seeds.
      have hconfined := (hlater.restorable h wf.enterable).confined
      have hsource := hsel.source_lt h hx.legal.lt_size u (by simp [hu])
      rw [ht.seeds_eq h hsel hx.legal.lt_size hul he]
      refine (hl.settled u hul e he).congr h (fun _ => Iff.rfl) (fun q hq => ?_) fun x hxe => ?_
      · exact (isDescendant_of_seed h hconfined hsource he hq).elim .inr
          fun ⟨e1, e2⟩ => .inl (e1.trans e2.symm)
      · refine ht.outside x fun v hv d hd hxd => ?_
        rw [List.mem_singleton] at hv
        subst hv
        exact hsel.not_within h hul he hd hxe (.inr hxd)
    · exact ht.settled u hul e he

end Snoc

section Order

variable {names : Names} (h : c.Accepted names) (wf : c.WellFormed) (hx : c.Sound a history)
  (hs : history.Sorted)
include h wf hx hs

theorem Sound.exists_takenEach : ∀ {rest transitions : List Nat} {b : NodeSet}
    {later : Dict (List Nat)}, c.Selected a (transitions ++ rest) → c.Sound b later →
    c.Turned a history transitions b later → ∃ b' later',
      rest.foldlM (fun before t => c.taken [t] before) (b, later) = some (b', later') ∧
        c.Turned a history (transitions ++ rest) b' later' := by
  intro rest
  induction rest with
  | nil =>
    intro transitions b later _ _ hl
    exact ⟨b, later, rfl, by rwa [List.append_nil]⟩
  | cons t rest ih =>
    intro transitions b later hsel hb hl
    have hsel' : c.Selected a ((transitions ++ [t]) ++ rest) := by simpa using hsel
    -- The invariant is `Turned`, of the transitions taken so far.
    have hpre : c.Selected a (transitions ++ [t]) :=
      ⟨fun u hu => hsel'.picked u (List.mem_append_left _ hu),
        (List.pairwise_append.mp hsel'.apart).1⟩
    obtain ⟨b₁, later₁, htaken, hb₁, ht⟩ : ∃ b₁ later₁,
        c.taken [t] (b, later) = some (b₁, later₁) ∧ c.Sound b₁ later₁ ∧
          c.Turned b later [t] b₁ later₁ := by
      cases hd : c.domain t with
      | none =>
        exact ⟨b, later, taken_of_targetless hd b later, hb,
          .of_targetless hb.legal later fun u hu => List.mem_singleton.mp hu ▸ hd⟩
      | some d => exact hb.exists_taken h wf (hl.selected_last h hpre hx.legal.lt_size hd)
    obtain ⟨b', later', hfold, hall⟩ := ih hsel' hb₁
      (hl.snoc h wf hpre hx hs hb.remembers ht)
    refine ⟨b', later', ?_, by simpa using hall⟩
    rw [List.foldlM_cons, htaken]
    exact hfold

/-- Selected transitions lead to one configuration and one history, in whatever order they are
taken, together or one at a time. -/
theorem Sound.independent (hsel : c.Selected a transitions) : ∃ b later,
    ∀ order : List Nat, order.Perm transitions →
      c.taken order (a, history) = some (b, later) ∧
      order.foldlM (fun before t => c.taken [t] before) (a, history) = some (b, later) := by
  obtain ⟨b, later, -, -, hturned⟩ := hx.exists_taken h wf hsel
  refine ⟨b, later, fun order horder => ?_⟩
  have hsel' : c.Selected a ([] ++ order) :=
    ⟨fun t ht => hsel.picked t (horder.mem_iff.mp ht),
      (horder.pairwise_iff fun hst => symm hst).mpr hsel.apart⟩
  have hmem : ∀ t, t ∈ order ↔ t ∈ transitions := fun t => horder.mem_iff
  obtain ⟨b₁, later₁, htaken, -, h₁⟩ := hx.exists_taken h wf hsel'
  have hnone : c.Turned a history [] a history :=
    .of_targetless hx.legal history (List.forall_mem_nil _)
  obtain ⟨b₂, later₂, heach, h₂⟩ := hx.exists_takenEach h wf hs hsel' hx hnone
  obtain ⟨rfl, rfl⟩ := h₁.unique h hturned hmem
  obtain ⟨rfl, rfl⟩ := h₂.unique h h₁ fun _ => Iff.rfl
  exact ⟨htaken, heach⟩

end Order

end Statechart.Chart
