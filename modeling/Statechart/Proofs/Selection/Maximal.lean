import Statechart.Proofs.Macrostep.Run

/-!
# No pick is dropped without a reason

Every active leaf picks the choice of the nearest state on its way up that has one, a choice
being the first offered transition whose guard passes (`Registry.enabled`). The picks are
settled one by one, and a pick that is kept can displace one that displaced, or kept out,
another before. Still every pick that is left out in the end is excluded by one that is
selected (`Chart.Excludes`):

* If `s` displaced `t` and `u` displaces `s`, then `u` comes from inside the source of `t` too,
  and the leaf of `u` is left by both.
* If `s` kept `t` out, no later pick displaces `s`: the leaves are in document order, so the leaf
  of `t` would lie between two leaves inside the source of `s`, and could only have picked `s`
  or something from further inside (`isDeeper_of_between`).

Results:

* `picks_eq_enabled`: a selection that succeeds settles the conflicts of the picks.
* `Excluded.settle`: one more pick keeps the reasons.
* `Machine.select_maximal`: what a built machine selects, in any set of active states.
-/
namespace Statechart

/-! ## Picks -/

namespace Registry

variable {C E A : Type} (r : Registry C E A) (c : Chart) (context : C) (event : Event)

/-- Whether the guard of a transition passes. One that fails does not pass. -/
def passes (t : Nat) : Bool :=
  match r.permits c context event t with
  | .ok passes => passes
  | .error _ => false

/-- What a state has to choose: the first transition whose guard passes. -/
def choice (trigger : Trigger) (n : Nat) : Option Nat :=
  (c.offered trigger event n).find? (r.passes c context event)

/-- What a leaf picks: the choice of the nearest state on its way up that has one. -/
def pick (trigger : Trigger) (leaf : Nat) : Option Nat :=
  (leaf :: c.ancestors leaf).findSome? (r.choice c context event trigger)

/-- The picks of the active leaves, in document order of the leaves, each once. -/
def enabled (configuration : NodeSet) (trigger : Trigger) : List Nat :=
  ((c.activeLeaves configuration).filterMap (r.pick c context event trigger)).eraseDups

variable {r c context event} {trigger : Trigger} {configuration : NodeSet}

theorem firstPermitted_ok {o : Option Nat} :
    ∀ {l : List Nat}, r.firstPermitted c context event l = .ok o →
      o = l.find? (r.passes c context event)
  | [], h => by cases h; rfl
  | t :: rest, h => by
    simp only [firstPermitted, bind_ok] at h
    obtain ⟨passes, hp, h⟩ := h
    have ht : r.passes c context event t = passes := by rw [Registry.passes, hp]
    cases passes with
    | true => cases h; rw [List.find?_cons_of_pos ht]
    | false => rw [List.find?_cons_of_neg (by simp [ht]), firstPermitted_ok h]

theorem exists_firstPermitted : ∀ {l : List Nat},
    (∀ t ∈ l, ∃ passes, r.permits c context event t = .ok passes) →
      ∃ o, r.firstPermitted c context event l = .ok o
  | [], _ => ⟨none, rfl⟩
  | t :: rest, h => by
    obtain ⟨passes, hp⟩ := h t List.mem_cons_self
    obtain ⟨o, ho⟩ := exists_firstPermitted fun k hk => h k (List.mem_cons_of_mem _ hk)
    cases passes with
    | true => exact ⟨some t, by simp only [firstPermitted, bind_ok]; exact ⟨true, hp, rfl⟩⟩
    | false => exact ⟨o, by simp only [firstPermitted, bind_ok]; exact ⟨false, hp, ho⟩⟩

theorem firstPermitted_candidates {leaf : Nat} {o : Option Nat}
    (h : r.firstPermitted c context event (c.candidates trigger event leaf) = .ok o) :
    o = r.pick c context event trigger leaf := by
  rw [firstPermitted_ok h, Chart.candidates, List.find?_flatMap]
  rfl

theorem mapM_ok_eq {α β ε : Type} {f : α → Except ε β} {g : α → β}
    (hf : ∀ a b, f a = .ok b → b = g a) :
    ∀ {l : List α} {bs : List β}, l.mapM f = .ok bs → bs = l.map g
  | [], bs, h => by rw [List.mapM_nil, pure_ok] at h; rw [← h]; rfl
  | a :: l, bs, h => by
    simp only [List.mapM_cons, bind_ok, pure_ok] at h
    obtain ⟨b, hb, bs, hbs, rfl⟩ := h
    rw [List.map_cons, hf a b hb, mapM_ok_eq hf hbs]

theorem exists_mapM {α β ε : Type} {f : α → Except ε β} :
    ∀ {l : List α}, (∀ a ∈ l, ∃ b, f a = .ok b) → ∃ bs, l.mapM f = .ok bs
  | [], _ => ⟨[], rfl⟩
  | a :: l, h => by
    obtain ⟨b, hb⟩ := h a List.mem_cons_self
    obtain ⟨bs, hbs⟩ := exists_mapM fun k hk => h k (List.mem_cons_of_mem _ hk)
    refine ⟨b :: bs, ?_⟩
    simp only [List.mapM_cons, bind_ok, pure_ok]
    exact ⟨b, hb, bs, hbs, rfl⟩

/-- The picks that a selection goes on with are those of the leaves. -/
theorem picks_eq_enabled {ts : List Nat}
    (h : r.picks c configuration context event trigger = .ok ts) :
    ts = r.enabled c context event configuration trigger := by
  simp only [picks, bind_ok, pure_ok] at h
  obtain ⟨rs, hrs, rfl⟩ := h
  rw [mapM_ok_eq (fun _ _ ho => firstPermitted_candidates ho) hrs, List.filterMap_map]
  rfl

/-- If no guard that a leaf may come to fails, there is a selection. -/
theorem exists_select
    (h : ∀ leaf ∈ c.activeLeaves configuration, ∀ t ∈ c.candidates trigger event leaf,
      ∃ passes, r.permits c context event t = .ok passes) :
    ∃ selected, r.select c configuration context event trigger = .ok selected := by
  obtain ⟨rs, hrs⟩ := exists_mapM fun leaf hleaf => exists_firstPermitted (h leaf hleaf)
  refine ⟨c.withoutConflicts configuration (rs.filterMap id).eraseDups, ?_⟩
  simp only [select, picks, bind_ok, pure_ok]
  exact ⟨_, ⟨rs, hrs, rfl⟩, rfl⟩

theorem nodup_eraseDups (l : List Nat) : l.eraseDups.Nodup := by
  induction hn : l.length using Nat.strongRecOn generalizing l with
  | ind n ih =>
    cases l with
    | nil => simp
    | cons a rest =>
      have hlen := List.length_filter_le (fun b => !b == a) rest
      rw [List.eraseDups_cons, List.nodup_cons]
      exact ⟨by simp [List.mem_eraseDups], ih _ (by simp at hn; omega) _ rfl⟩

/-- A pick is the choice of its source, and what is nearer to the leaf has none. -/
theorem pick_spec {names : Names} (h : c.Accepted names) {leaf t : Nat}
    (hp : r.pick c context event trigger leaf = some t) :
    c.Within leaf (c.transition t).source ∧
      r.choice c context event trigger (c.transition t).source = some t ∧
      ∀ n, c.Within leaf n → c.isDescendant n (c.transition t).source = true →
        r.choice c context event trigger n = none := by
  obtain ⟨nearer, n, further, hway, hn, hnone⟩ := List.findSome?_eq_some_iff.mp hp
  have hoffered : t ∈ c.offered trigger event n := List.mem_of_find?_eq_some hn
  have hsource : (c.transition t).source = n := by
    cases trigger with
    | event => exact h.source_of_on hoffered
    | eventless => exact h.source_of_always hoffered
  have hmem : ∀ x, x ∈ nearer ++ n :: further ↔ c.Within leaf x := by
    intro x
    rw [← hway, List.mem_cons, Chart.mem_ancestors h.toIsTree]
    exact or_congr_left eq_comm
  have hdesc := Chart.ancestors_descending h.toIsTree leaf
  rw [hway] at hdesc
  refine hsource ▸ ⟨(hmem n).mp (by simp), hn, fun x hx hxn => ?_⟩
  rcases List.mem_append.mp ((hmem x).mpr hx) with hx | hx
  · exact hnone x hx
  · -- What comes after `n` on the way up is not inside `n`.
    have hlt := (Chart.isDescendant_iff.mp hxn).1
    rcases List.mem_cons.mp hx with rfl | hx
    · omega
    · have := (List.pairwise_cons.mp (List.pairwise_append.mp hdesc).2.1).1 x hx
      omega

theorem exists_leaves {ts : List Nat}
    (h : ts.Sublist (r.enabled c context event configuration trigger)) :
    ∃ leaves : List Nat, leaves.Sublist (c.activeLeaves configuration) ∧
      ts = leaves.filterMap (r.pick c context event trigger) :=
  List.sublist_filterMap_iff.mp (h.trans (eraseDups_sublist _))

theorem exists_three {f : Nat → Option Nat} : ∀ {leaves : List Nat} {s t u : Nat},
    leaves.Pairwise (· < ·) → [s, t, u] = leaves.filterMap f →
      ∃ a ∈ leaves, ∃ b ∈ leaves, ∃ d ∈ leaves,
        a < b ∧ b < d ∧ f a = some s ∧ f b = some t ∧ f d = some u := by
  intro leaves s t u hl he
  obtain ⟨l₁, a, l₂, rfl, -, ha, he⟩ := List.filterMap_eq_cons_iff.mp he.symm
  obtain ⟨l₃, b, l₄, rfl, -, hb, he⟩ := List.filterMap_eq_cons_iff.mp he
  obtain ⟨l₅, d, l₆, rfl, -, hd, -⟩ := List.filterMap_eq_cons_iff.mp he
  have h₁ := List.pairwise_cons.mp (List.pairwise_append.mp hl).2.1
  have h₂ := List.pairwise_cons.mp (List.pairwise_append.mp h₁.2).2.1
  exact ⟨a, by simp, b, by simp, d, by simp, h₁.1 b (by simp), h₂.1 d (by simp), ha, hb, hd⟩

end Registry

/-! ## Conflicts -/

namespace Chart

variable {c : Chart} {configuration : NodeSet} {s t u : Nat}

theorem conflict_iff : c.conflict configuration s t = true ↔
    ∃ n ∈ c.exitSet configuration [s], n ∈ c.exitSet configuration [t] := by
  rw [conflict, Bool.not_eq_true', ← Bool.not_eq_true, NodeSet.disjoint_iff]
  simp

theorem conflict_comm : c.conflict configuration s t = c.conflict configuration t s := by
  rw [Bool.eq_iff_iff, conflict_iff, conflict_iff]
  exact exists_congr fun n => and_comm

theorem domain_of_conflict (h : c.conflict configuration s t = true) :
    (∃ d, c.domain s = some d) ∧ ∃ d, c.domain t = some d := by
  obtain ⟨n, hs, ht⟩ := conflict_iff.mp h
  obtain ⟨-, s', hs', d, hd, -⟩ := mem_exitSet.mp hs
  obtain ⟨-, t', ht', e, he, -⟩ := mem_exitSet.mp ht
  rw [List.mem_singleton] at hs' ht'
  exact ⟨⟨d, hs' ▸ hd⟩, e, ht' ▸ he⟩

/-- One pick keeps another from being taken: some active state would be left by both, and the one
comes from inside the source of the other, or was there before it and the other does not come
from inside its source. -/
structure Excludes (c : Chart) (configuration : NodeSet) (picks : List Nat) (s t : Nat) :
    Prop where
  meet : ∃ n ∈ c.exitSet configuration [s], n ∈ c.exitSet configuration [t]
  wins : c.isDescendant (c.transition s).source (c.transition t).source = true ∨
    [s, t].Sublist picks ∧ c.isDescendant (c.transition t).source (c.transition s).source = false

/-- All picks that are not kept are excluded by kept ones. -/
def Excluded (c : Chart) (configuration : NodeSet) (picks kept : List Nat) : Prop :=
  ∀ t ∈ picks, t ∉ kept → ∃ s ∈ kept, c.Excludes configuration picks s t

/-- What picks of active leaves have in common. -/
structure Coherent (c : Chart) (configuration : NodeSet) (picks : List Nat) : Prop where
  nodup : picks.Nodup
  /-- A pick from inside the source of another leaves something that the other leaves. -/
  meet : ∀ u ∈ picks, ∀ t, c.isDeeper u t = true → (∃ d, c.domain u = some d) →
    (∃ d, c.domain t = some d) → c.conflict configuration u t = true
  /-- What is picked between a pick and one from inside its source is from inside it too. -/
  between : ∀ s t u, [s, t, u].Sublist picks → c.isDeeper u s = true → c.isDeeper t s = true

theorem mem_settle {kept : List Nat} {k : Nat} (hk : k ∈ c.settle configuration kept t) :
    k ∈ kept ∨ k = t := by
  simpa using (settle_sublist c configuration kept t).subset hk

/-- One more pick keeps the reasons. Where it displaces the one that excluded another, it
excludes the other itself. -/
theorem Excluded.settle (h : c.IsTree) {picks done rest kept : List Nat}
    (hp : c.Coherent configuration picks) (hsplit : done ++ u :: rest = picks)
    (hkept : ∀ k ∈ kept, k ∈ done) (hx : c.Excluded configuration done kept) :
    c.Excluded configuration (done ++ [u]) (c.settle configuration kept u) := by
  have hu : u ∈ picks := by rw [← hsplit]; simp
  have hbefore : ∀ {k}, k ∈ done → [k, u].Sublist (done ++ [u]) := fun hk =>
    (List.singleton_sublist.mpr hk).append (.refl [u])
  intro t ht hnot
  unfold Chart.settle at hnot ⊢
  dsimp only at hnot ⊢
  by_cases hall : (kept.filter fun k => c.conflict configuration u k).all fun k => c.isDeeper u k
  · rw [if_pos hall] at hnot ⊢
    have hdisplaces : ∀ {k}, k ∈ kept → c.conflict configuration u k = true →
        c.isDeeper u k = true := fun hk hc =>
      List.all_eq_true.mp hall _ (List.mem_filter.mpr ⟨hk, hc⟩)
    have hnew : ∀ {k}, k = u → k ∈ (kept.filter fun k => !c.conflict configuration u k) ++ [u] :=
      fun e => by simp [e]
    have htu : t ≠ u := fun e => hnot (hnew e)
    have ht : t ∈ done := by simpa [htu] using ht
    by_cases htk : t ∈ kept
    · -- It was kept so far, so it is displaced now.
      have hc : c.conflict configuration u t = true := by
        by_contra hc
        exact hnot (List.mem_append_left _ (List.mem_filter.mpr ⟨htk, by simpa using hc⟩))
      exact ⟨u, hnew rfl, conflict_iff.mp hc, .inl (hdisplaces htk hc)⟩
    · obtain ⟨s, hs, hmeet, hwins⟩ := hx t ht htk
      by_cases hc : c.conflict configuration u s = true
      · -- The one that excluded it is displaced.
        have hus := hdisplaces hs hc
        rcases hwins with hst | ⟨hst, hnts⟩
        · have hut : c.isDeeper u t = true := h.trans hus hst
          have hd := hp.meet u hu t hut (domain_of_conflict hc).1
            (domain_of_conflict (conflict_iff.mpr hmeet)).2
          exact ⟨u, hnew rfl, conflict_iff.mp hd, .inl hut⟩
        · have hrow : [s, t, u].Sublist picks :=
            hsplit ▸ hst.append (List.singleton_sublist.mpr List.mem_cons_self)
          rw [show c.isDescendant (c.transition t).source (c.transition s).source = true from
            hp.between s t u hrow hus] at hnts
          cases hnts
      · refine ⟨s, List.mem_append_left _ (List.mem_filter.mpr ⟨hs, by simpa using hc⟩), hmeet,
          hwins.imp_right fun ⟨hst, hnts⟩ => ⟨hst.trans (List.sublist_append_left _ _), hnts⟩⟩
  · rw [if_neg hall] at hnot ⊢
    rcases List.mem_append.mp ht with ht | ht
    · obtain ⟨s, hs, hmeet, hwins⟩ := hx t ht hnot
      exact ⟨s, hs, hmeet, hwins.imp_right fun ⟨hst, hnts⟩ =>
        ⟨hst.trans (List.sublist_append_left _ _), hnts⟩⟩
    · -- It is the new pick, which a kept one keeps out.
      obtain rfl := List.mem_singleton.mp ht
      obtain ⟨k, hk, hc, hnk⟩ : ∃ k ∈ kept, c.conflict configuration t k = true ∧
          c.isDeeper t k = false := by simpa using hall
      rw [conflict_comm] at hc
      exact ⟨k, hk, conflict_iff.mp hc, .inr ⟨hbefore (hkept k hk), hnk⟩⟩

/-- What is left out when all conflicts are settled is excluded by what is left. -/
theorem excluded_withoutConflicts (h : c.IsTree) {picks : List Nat}
    (hp : c.Coherent configuration picks) :
    c.Excluded configuration picks (c.withoutConflicts configuration picks) := by
  have go : ∀ (rest done kept : List Nat), done ++ rest = picks → (∀ k ∈ kept, k ∈ done) →
      c.Excluded configuration done kept →
      c.Excluded configuration picks (rest.foldl (c.settle configuration) kept) := by
    intro rest
    induction rest with
    | nil =>
      intro done kept hsplit _ hx
      rw [List.append_nil] at hsplit
      exact hsplit ▸ hx
    | cons u rest ih =>
      intro done kept hsplit hkept hx
      refine ih (done ++ [u]) _ (by simpa using hsplit) (fun k hk => ?_)
        (hx.settle h hp hsplit hkept)
      exact List.mem_append.mpr ((mem_settle hk).imp (hkept k) List.mem_singleton.mpr)
  exact go picks [] [] rfl (fun _ hk => hk) fun _ ht => absurd ht List.not_mem_nil

end Chart

/-! ## Selections -/

namespace Registry

variable {C E A : Type} {r : Registry C E A} {c : Chart} {names : Names} (h : c.Accepted names)
  {context : C} {event : Event} {trigger : Trigger} {configuration : NodeSet}
include h

/-- What is picked between a pick and one from inside its source is from inside it too. -/
theorem isDeeper_of_between {s t u : Nat}
    (hrow : [s, t, u].Sublist (r.enabled c context event configuration trigger))
    (hus : c.isDeeper u s = true) : c.isDeeper t s = true := by
  have hne : s ≠ t := fun e => by
    have := hrow.nodup (nodup_eraseDups _)
    simp [e] at this
  obtain ⟨leaves, hleaves, he⟩ := exists_leaves hrow
  have hsorted : leaves.Pairwise (· < ·) :=
    (configuration.sorted.filter fun n => (c.node n).isLeaf).sublist hleaves
  obtain ⟨a, -, b, -, d, -, hab, hbd, ha, hb, hd⟩ := exists_three hsorted he
  obtain ⟨has, hschoice, -⟩ := pick_spec h ha
  obtain ⟨hbt, htchoice, hnearer⟩ := pick_spec h hb
  obtain ⟨hdu, -, -⟩ := pick_spec h hd
  -- The leaf of `t` lies between two leaves inside the source of `s`.
  have hbs : c.isDescendant b (c.transition s).source = true := by
    have hds := Chart.isDescendant_iff.mp (h.within_isDescendant hdu hus)
    refine Chart.isDescendant_iff.mpr ⟨?_, by omega⟩
    rcases has with e | has
    · omega
    · have := (Chart.isDescendant_iff.mp has).1; omega
  rcases h.within_total hbt (.inr hbs) with hts | hst
  · rcases hts with e | hts
    · rw [e, hschoice] at htchoice
      exact absurd (Option.some.inj htchoice) hne
    · exact hts
  · rcases hst with e | hst
    · rw [← e, hschoice] at htchoice
      exact absurd (Option.some.inj htchoice) hne
    · rw [hnearer _ (.inr hbs) hst] at hschoice
      cases hschoice

/-- The picks of active leaves have all that is needed to settle their conflicts. -/
theorem coherent_enabled :
    c.Coherent configuration (r.enabled c context event configuration trigger) where
  nodup := nodup_eraseDups _
  between _ _ _ hrow hus := isDeeper_of_between h hrow hus
  meet u hu t hut hud htd := by
    obtain ⟨leaf, hleaf, hp⟩ := List.mem_filterMap.mp (List.mem_eraseDups.mp hu)
    obtain ⟨hactive, hl⟩ := List.mem_filter.mp hleaf
    obtain ⟨hlu, -, -⟩ := pick_spec h hp
    obtain ⟨d, hd⟩ := hud
    obtain ⟨e, he⟩ := htd
    -- The leaf of the inner pick is left by both.
    have hlt : c.isDescendant leaf (c.transition t).source = true := h.within_isDescendant hlu hut
    have hinside : ∀ {k e}, c.domain k = some e → c.Within leaf (c.transition k).source →
        leaf ∈ c.exitSet configuration [k] := fun {k e} hk hw => by
      refine Chart.mem_exitSet.mpr ⟨hactive, k, by simp, e, hk, ?_⟩
      rcases h.leaf_in_domain (h.lt_size hlt) hl hw hk with hin | rfl
      · exact hin
      · exact absurd hlt (h.not_root_isDescendant _)
    exact Chart.conflict_iff.mpr ⟨leaf, hinside hd hlu, hinside he (.inr hlt)⟩

end Registry

namespace Machine

variable {C E A : Type} {m : Machine C E A}

/-- Selection is free of conflicts and maximal. If no guard fails that a leaf may come to,
there is a selection. What is selected are picks of active leaves in their order, no two of which
leave a common state, and every pick that is left out is excluded by one that is selected. -/
theorem select_maximal {registry : Registry C E A} {initial : C} {maxMicrosteps : Nat}
    {d : Definition} (hb : build registry initial maxMicrosteps d = .ok m)
    (configuration : NodeSet) (context : C) (event : Event) (trigger : Trigger) :
    let enabled := m.registry.enabled m.chart context event configuration trigger
    ((∀ leaf ∈ m.chart.activeLeaves configuration,
        ∀ t ∈ m.chart.candidates trigger event leaf,
          ∃ passes, m.registry.permits m.chart context event t = .ok passes) →
      ∃ selected,
        m.registry.select m.chart configuration context event trigger = .ok selected) ∧
    ∀ selected, m.registry.select m.chart configuration context event trigger = .ok selected →
      selected.Sublist enabled ∧
      selected.Pairwise (fun s t =>
        ∀ n ∈ m.chart.exitSet configuration [s], n ∉ m.chart.exitSet configuration [t]) ∧
      ∀ t ∈ enabled, t ∉ selected →
        ∃ s ∈ selected, m.chart.Excludes configuration enabled s t := by
  have h := accepted_of_build hb
  refine ⟨Registry.exists_select, fun selected hs => ?_⟩
  simp only [Registry.select, bind_ok, pure_ok] at hs
  obtain ⟨picks, hp, rfl⟩ := hs
  obtain rfl := Registry.picks_eq_enabled hp
  refine ⟨Chart.withoutConflicts_sublist _ _ _,
    (Chart.withoutConflicts_pairwise _ _ _).imp fun {s t} hst n hns hnt => ?_,
    Chart.excluded_withoutConflicts h.toIsTree (Registry.coherent_enabled h)⟩
  rw [Chart.conflict_iff.mpr ⟨n, hnt, hns⟩] at hst
  cases hst

/-- A hall whose light follows the show, while its sound and its stage can end the show too. -/
def hall : Definition := {
  key := "hall"
  states := [
    { key := "show"
      kind := some .parallel
      on := [⟨"END", [{ target := ["#hall.dark"] }]⟩]
      states := [
        { key := "light" },
        { key := "sound", on := [⟨"END", [{ target := ["#hall.dark"] }]⟩] },
        { key := "stage", on := [⟨"END", [{ target := ["#hall.dark"] }]⟩] }] },
    { key := "dark" }] }

def hallMachine : Machine Unit Unit Unit := buildD {} () 10 hall

/-- All three ends of the show are picked. That of the sound is selected: it comes from inside the
source of the first and before the third. -/
theorem select_maximal_hall : build {} () 10 hall = .ok hallMachine ∧
    let configuration := NodeSet.ofList [0, 1, 2, 3, 4]
    hallMachine.registry.enabled hallMachine.chart () { type := "END" } configuration .event =
      [0, 1, 2] ∧
    hallMachine.registry.select hallMachine.chart configuration () { type := "END" } .event =
      .ok [1] ∧
    ∀ t ∈ [0, 1, 2], t ∉ [1] →
      ∃ s ∈ [1], hallMachine.chart.Excludes configuration [0, 1, 2] s t := by
  have hb : build {} () 10 hall = .ok hallMachine := build_eq_buildD (by decide +kernel)
  have henabled : hallMachine.registry.enabled hallMachine.chart () { type := "END" }
      (NodeSet.ofList [0, 1, 2, 3, 4]) .event = [0, 1, 2] := by decide +kernel
  have hselect : hallMachine.registry.select hallMachine.chart (NodeSet.ofList [0, 1, 2, 3, 4]) ()
      { type := "END" } .event = .ok [1] := by rfl
  have hall := (select_maximal hb (NodeSet.ofList [0, 1, 2, 3, 4]) () { type := "END" } .event).2
    [1] hselect
  rw [henabled] at hall
  exact ⟨hb, henabled, hselect, hall.2.2⟩

end Machine

end Statechart
