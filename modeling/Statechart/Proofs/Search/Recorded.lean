import Mathlib.Logic.Relation
import Statechart.Proofs.Search.Live
import Statechart.Proofs.Search.Tabulated

/-!
# What plans record

A plan records the snapshots that its events lead to. Whatever the fingerprints are, replaying
the events goes through these snapshots (`Retraces`), and each event is a candidate where it is
sent. The plans of a breadth-first search hang together: each with events was made from one that
was found before it, by one candidate more (`Progress.parent`). So the parts of a plan are plans
themselves, no fingerprint comes twice along it, and a depth-first search, which goes all such
ways (`mem_simpleFrom`), comes to the same plan.

* `Traced.retraces`: what a plan records.
* `Progress.parts`, `Progress.grows`: the plans on the way to a plan.
* `shortest_sound`: all of it for a search that succeeds.
-/
namespace Statechart.Search

open Table

variable {C E A : Type} [BEq C] {m : Machine C E A} {o : SearchOptions C} {places : List Nat}
  {p q : Plan C} {s t : Snapshot C}

/-! ## The record of a plan -/

/-- Replaying the events of a plan goes through these snapshots, and the plan has them and their
fingerprints on record. -/
structure Retraces (m : Machine C E A) (o : SearchOptions C) (p : Plan C)
    (snapshots : List (Snapshot C)) : Prop where
  replay : m.replay p.events = .ok snapshots
  recorded : snapshots.tail = p.steps.map PlanStep.snapshot
  last : snapshots.getLast? = some p.snapshot
  /-- Every event is a candidate of the snapshot that it is sent in. -/
  candidate : ∀ (i : Nat) (step : PlanStep C) (s : Snapshot C), p.steps[i]? = some step →
    snapshots[i]? = some s → step.event ∈ (o.candidates s).map Prod.snd
  fingerprint : p.fingerprint = o.snapshotFingerprint p.snapshot
  fingerprints : ∀ step ∈ p.steps, step.fingerprint = o.snapshotFingerprint step.snapshot

theorem Path.replayFrom {steps : List (PlanStep C)} (hp : Path m s steps t) :
    m.replayFrom s (steps.map PlanStep.event) = .ok (s :: steps.map PlanStep.snapshot) := by
  induction hp with
  | nil s => rfl
  | @cons s t step steps h _ ih =>
    rw [List.map_cons, List.map_cons, Machine.replayFrom, h]
    simp [bind, Except.bind, ih, pure, Except.pure]

theorem Path.getLast? {steps : List (PlanStep C)} (hp : Path m s steps t) :
    (s :: steps.map PlanStep.snapshot).getLast? = some t := by
  induction hp with
  | nil s => rfl
  | cons _ _ ih => rw [List.map_cons, List.getLast?_cons_cons, ih]

namespace Traced

theorem candidate {first : Snapshot C} (hfirst : m.initial = .ok first) (h : Traced m o places p) :
    ∀ (i : Nat) (step : PlanStep C) (s : Snapshot C), p.steps[i]? = some step →
      (first :: p.steps.map PlanStep.snapshot)[i]? = some s →
      step.event ∈ (o.candidates s).map Prod.snd := by
  induction h with
  | start hs => intro i step s hi _; simp at hi
  | @extend places p k e t hp he ht ih =>
    intro i step s hi hs
    rw [Plan.extend] at hi hs
    rw [List.map_append, ← List.cons_append] at hs
    rcases Nat.lt_or_ge i p.steps.length with hlt | hge
    · rw [List.getElem?_append_left hlt] at hi
      rw [List.getElem?_append_left (by simpa using Nat.lt_succ_of_lt hlt)] at hs
      exact ih i step s hi hs
    · -- The last event is sent where the plan before ends.
      obtain ⟨hil, -⟩ := List.getElem?_eq_some_iff.mp hi
      obtain rfl : i = p.steps.length := by simp at hil; omega
      obtain ⟨first', hfirst', hpath⟩ := hp.path
      obtain rfl := Except.ok.inj (hfirst.symm.trans hfirst')
      have hlast := hpath.getLast?
      rw [List.getLast?_eq_getElem?, List.length_cons, List.length_map, Nat.add_sub_cancel] at hlast
      rw [List.getElem?_append_left (by simp), hlast] at hs
      rw [List.getElem?_concat_length] at hi
      cases hs
      cases hi
      exact List.mem_map_of_mem (List.mem_of_getElem? he)

theorem fingerprints (h : Traced m o places p) :
    ∀ step ∈ p.steps, step.fingerprint = o.snapshotFingerprint step.snapshot := by
  induction h with
  | start hs => exact fun step hstep => absurd hstep List.not_mem_nil
  | extend _ _ _ ih =>
    intro step hstep
    rcases List.mem_append.mp hstep with hstep | hstep
    · exact ih step hstep
    · rw [List.mem_singleton.mp hstep]

/-- Replaying a plan goes through the snapshots that it records. -/
theorem retraces (h : Traced m o places p) : ∃ snapshots, Retraces m o p snapshots := by
  obtain ⟨first, hfirst, hpath⟩ := h.path
  refine ⟨first :: p.steps.map PlanStep.snapshot, ?_, rfl, hpath.getLast?, h.candidate hfirst,
    h.fingerprint, h.fingerprints⟩
  rw [Machine.replay, hfirst]
  exact hpath.replayFrom

theorem of_snoc {i : Nat} (h : Traced m o (places ++ [i]) p) :
    ∃ q e t, Traced m o places q ∧ (o.candidates q.snapshot)[i]? = some e ∧
      m.transition q.snapshot e.2 = .ok t ∧ p = q.extend e.2 t (o.snapshotFingerprint t) := by
  generalize hplaces : places ++ [i] = all at h
  cases h with
  | start => simp at hplaces
  | extend hq he ht =>
    obtain ⟨rfl, hi⟩ := List.append_inj' hplaces rfl
    obtain rfl := List.head_eq_of_cons_eq hi
    exact ⟨_, _, _, hq, he, ht, rfl⟩

theorem unique (hp : Traced m o places p) (hq : Traced m o places q) : p = q := by
  induction hp generalizing q with
  | start hs =>
    obtain ⟨s, hs', rfl⟩ := hq.of_nil
    rw [Except.ok.inj (hs.symm.trans hs')]
  | extend _ he ht ih =>
    obtain ⟨q, e, t, hq', he', ht', rfl⟩ := hq.of_snoc
    obtain rfl := ih hq'
    obtain rfl := Option.some.inj (he.symm.trans he')
    rw [Except.ok.inj (ht.symm.trans ht')]

end Traced

/-! ## Ways without repetition -/

/-- One candidate more, which leads to a fingerprint that is not on the way yet. Kept with a plan
are the fingerprints on its way. -/
inductive Grows (m : Machine C E A) (o : SearchOptions C) :
    List String × Plan C → List String × Plan C → Prop
  | extend {way : List String} {p : Plan C} {e : String × Event} {t : Snapshot C}
      (he : e ∈ o.candidates p.snapshot) (ht : m.transition p.snapshot e.2 = .ok t)
      (hnew : o.snapshotFingerprint t ∉ way) :
      Grows m o (way, p)
        (o.snapshotFingerprint t :: way, p.extend e.2 t (o.snapshotFingerprint t))

/-- A depth-first search finds every plan that it can grow its way to, and keeps those it
has. -/
theorem mem_simpleFrom {fuel : Nat} {current : Plan C} {onPath : List String}
    {plans found : List (Plan C)}
    (h : (simpleFrom m o fuel current onPath plans).run = some (.ok found)) :
    (∀ p ∈ plans, p ∈ found) ∧
      ∀ way p, Relation.ReflTransGen (Grows m o) (onPath, current) (way, p) →
        p = current ∨ p ∈ found := by
  induction fuel generalizing current onPath plans found with
  | zero => exact absurd h run_outOfFuel
  | succ fuel ih =>
    rw [simpleFrom] at h
    -- One candidate: where its fingerprint is not on the way, all that grows from there is found.
    have hstep : ∀ e : String × Event, ∀ plans more : List (Plan C), (do
        let next ← ofResult (m.transition current.snapshot e.2)
        let fingerprint := o.snapshotFingerprint next
        if onPath.contains fingerprint then return plans
        o.checkLimit plans.length
        let plan := current.extend e.2 next fingerprint
        simpleFrom m o fuel plan (fingerprint :: onPath) (plans ++ [plan])).run =
          some (.ok more) →
        (∀ p ∈ plans, p ∈ more) ∧ ∀ t, m.transition current.snapshot e.2 = .ok t →
          o.snapshotFingerprint t ∉ onPath → ∀ way p,
            Relation.ReflTransGen (Grows m o) (o.snapshotFingerprint t :: onPath,
              current.extend e.2 t (o.snapshotFingerprint t)) (way, p) → p ∈ more := by
      intro e plans more hmore
      rw [run_bind] at hmore
      obtain ⟨next, hnext, hmore⟩ := hmore
      have hnext := run_ofResult.mp hnext
      dsimp only at hmore
      split at hmore
      · rename_i hon
        obtain rfl := run_pure.mp hmore
        refine ⟨fun _ hp => hp, fun t ht hnew => ?_⟩
        obtain rfl := Except.ok.inj (hnext.symm.trans ht)
        exact absurd (List.contains_iff_mem.mp hon) hnew
      · rw [run_bind] at hmore
        obtain ⟨-, -, hmore⟩ := hmore
        obtain ⟨hkeep, hgrow⟩ := ih hmore
        refine ⟨fun p hp => hkeep p (List.mem_append_left _ hp), fun t ht _ way p hway => ?_⟩
        obtain rfl := Except.ok.inj (hnext.symm.trans ht)
        rcases hgrow way p hway with rfl | hp
        · exact hkeep _ (by simp)
        · exact hp
    refine ⟨fun p hp => ?_, fun way p hway => ?_⟩
    · exact run_foldlM (P := fun more => p ∈ more)
        (fun e _ plans more hp hmore => (hstep e plans more hmore).1 p hp) hp h
    · rcases Relation.ReflTransGen.cases_head hway with heq | ⟨_, ⟨he, ht, hnew⟩, hway⟩
      · exact .inl (congrArg Prod.snd heq).symm
      · exact .inr (run_foldlM_of_mem (P := fun more => p ∈ more)
          (fun e _ plans more hp hmore => (hstep e plans more hmore).1 p hp) he
          (fun plans more hmore => (hstep _ plans more hmore).2 _ ht hnew way p hway) h)

/-! ## The plans that a breadth-first search finds -/

namespace Progress

variable {position count : Nat} {found : List (List Nat × Plan C)} {d : List Nat × Plan C} {i : Nat}

/-- A plan with events goes on from one that was found before it, by one candidate. -/
theorem parent (h : Progress m o position count found) (hd : found[i]? = some d) :
    d.1 = [] ∨ ∃ k c e t, k < i ∧ found[k]? = some c ∧ e ∈ o.candidates c.2.snapshot ∧
      m.transition c.2.snapshot e.2 = .ok t ∧
      d.2 = c.2.extend e.2 t (o.snapshotFingerprint t) := by
  refine (h.origin d (List.mem_of_getElem? hd)).imp_right fun ⟨k, j, c, _, hc, hplaces⟩ => ?_
  obtain ⟨q, e, t, hq, he, ht, heq⟩ :=
    (hplaces ▸ h.traced d (List.mem_of_getElem? hd)).of_snoc
  obtain rfl := hq.unique (h.traced c (List.mem_of_getElem? hc))
  refine ⟨k, c, e, t, ?_, hc, List.mem_of_getElem? he, ht, heq⟩
  -- Plans are found in the order of their ranks.
  by_contra hle
  have hrank : rank c.1 < rank d.1 := hplaces ▸ rank_lt_rank.mpr (.inl (by simp))
  obtain ⟨hkl, rfl⟩ := List.getElem?_eq_some_iff.mp hc
  obtain ⟨hil, rfl⟩ := List.getElem?_eq_some_iff.mp hd
  rcases Nat.lt_or_eq_of_le (Nat.not_lt.mp hle) with hlt | heq
  · exact lt_asymm hrank (List.pairwise_iff_getElem.mp h.sorted i k hil hkl hlt)
  · subst heq
    exact lt_irrefl _ hrank

/-- The parts of a plan are plans that were found before it. -/
theorem parts (h : Progress m o position count found) (hd : found[i]? = some d) :
    ∀ k < d.2.size, ∃ j b, j < i ∧ found[j]? = some b ∧ b.2.steps = d.2.steps.take k := by
  induction i using Nat.strongRecOn generalizing d with
  | ind i ih =>
    intro k hk
    rcases h.parent hd with hnil | ⟨j, c, e, t, hj, hc, -, -, heq⟩
    · have hsize := (h.traced d (List.mem_of_getElem? hd)).size
      rw [hsize, hnil] at hk
      exact absurd hk (Nat.not_lt_zero k)
    · have hsteps : d.2.steps = c.2.steps ++ [⟨e.2, t, o.snapshotFingerprint t⟩] :=
        congrArg Plan.steps heq
      rw [Plan.size, hsteps, List.length_append] at hk
      rcases Nat.lt_or_ge k c.2.steps.length with hlt | hge
      · obtain ⟨j', b, hj', hb, htake⟩ := ih j hj hc k hlt
        refine ⟨j', b, Nat.lt_trans hj' hj, hb, ?_⟩
        rw [htake, hsteps, List.take_append_of_le_length hlt.le]
      · obtain rfl : k = c.2.steps.length := by simp at hk; omega
        exact ⟨j, c, hj, hc, by rw [hsteps, List.take_left]⟩

/-- A plan grows on a way whose fingerprints are those of plans that were found up to it. -/
theorem grows (h : Progress m o position count found) (hd : found[i]? = some d) :
    ∃ first way, Traced m o [] first ∧
      Relation.ReflTransGen (Grows m o) ([first.fingerprint], first) (way, d.2) ∧
      ∀ f ∈ way, ∃ j b, j ≤ i ∧ found[j]? = some b ∧ b.2.fingerprint = f := by
  induction i using Nat.strongRecOn generalizing d with
  | ind i ih =>
    have hmem := List.mem_of_getElem? hd
    rcases h.parent hd with hnil | ⟨k, c, e, t, hk, hc, he, ht, heq⟩
    · refine ⟨d.2, [d.2.fingerprint], hnil ▸ h.traced d hmem, .refl, fun f hf => ?_⟩
      exact ⟨i, d, Nat.le_refl i, hd, (List.mem_singleton.mp hf).symm⟩
    · obtain ⟨first, way, hfirst, hway, hfound⟩ := ih k hk hc
      have hfp : d.2.fingerprint = o.snapshotFingerprint t := congrArg Plan.fingerprint heq
      -- The fingerprint of the plan is none of those of the plans found before.
      have hnew : o.snapshotFingerprint t ∉ way := fun hf => by
        obtain ⟨j, b, hj, hb, hbf⟩ := hfound _ hf
        obtain ⟨hjl, rfl⟩ := List.getElem?_eq_some_iff.mp hb
        obtain ⟨hil, rfl⟩ := List.getElem?_eq_some_iff.mp hd
        have hne := List.pairwise_iff_getElem.mp (List.pairwise_map.mp h.distinct) j i hjl hil
          (Nat.lt_of_le_of_lt hj hk)
        exact hne (hbf.trans hfp.symm)
      refine ⟨first, _, hfirst, heq ▸ hway.tail (.extend he ht hnew), fun f hf => ?_⟩
      rcases List.mem_cons.mp hf with rfl | hf
      · exact ⟨i, d, Nat.le_refl i, hd, hfp⟩
      · obtain ⟨j, b, hj, hb, hbf⟩ := hfound f hf
        exact ⟨j, b, Nat.le_trans hj hk.le, hb, hbf⟩

end Progress

/-! ## The plans of a search -/

/-- Plans are sound, whatever the fingerprints are. When a search for shortest plans succeeds,

* replaying the events of a plan goes through the snapshots that it records, to its end, each
  event being a candidate where it is sent, and the fingerprints are those of the snapshots;
* no two plans have one fingerprint, and a fingerprint is looked up with its plan;
* every proper part of a plan from the start on is a plan that was found before;
* a search for simple plans that succeeds finds every one of these plans as well. -/
theorem shortest_sound {fuel : Nat} {t : Table C}
    (h : (shortestTable m o fuel).run = some (.ok t)) :
    (∀ p ∈ t.plans, ∃ snapshots, Retraces m o p snapshots) ∧
      (t.plans.map Plan.fingerprint).Nodup ∧
      (∀ f p, t.get? f = some p ↔ p ∈ t.plans ∧ p.fingerprint = f) ∧
      (∀ (i : Nat) (p : Plan C), t.plans[i]? = some p → ∀ k < p.size,
        ∃ (j : Nat) (q : Plan C), j < i ∧ t.plans[j]? = some q ∧ q.steps = p.steps.take k) ∧
      ∀ fuel found, (simple m o fuel).run = some (.ok found) → ∀ p ∈ t.plans, p ∈ found := by
  rw [shortestTable_eq, map_eq_pure_bind, run_bind] at h
  obtain ⟨_, hrun, h⟩ := h
  obtain rfl := run_pure.mp h
  obtain ⟨found, position, hp, -, rfl⟩ := progress_of_shortest hrun
  have hdistinct : ((found.map Prod.snd).map Plan.fingerprint).Nodup := by
    simpa [Function.comp_def] using hp.distinct
  refine ⟨fun p hmem => ?_, hdistinct, fun f p => get?_of hdistinct, fun i p hi k hk => ?_,
    fun fuel all hall p hmem => ?_⟩
  · obtain ⟨d, hd, rfl⟩ := List.mem_map.mp hmem
    exact (hp.traced d hd).retraces
  · rw [of, List.getElem?_map, Option.map_eq_some_iff] at hi
    obtain ⟨d, hd, rfl⟩ := hi
    obtain ⟨j, b, hj, hb, hsteps⟩ := hp.parts hd k hk
    exact ⟨j, b.2, hj, by rw [of, List.getElem?_map, hb]; rfl, hsteps⟩
  · obtain ⟨d, hd, rfl⟩ := List.mem_map.mp hmem
    obtain ⟨i, hi⟩ := List.getElem?_of_mem hd
    obtain ⟨first, way, hfirst, hway, -⟩ := hp.grows hi
    rw [simple, run_bind] at hall
    obtain ⟨start, hstart, hall⟩ := hall
    obtain rfl := hfirst.unique (traced_of_start hstart)
    obtain ⟨hkeep, hgrow⟩ := mem_simpleFrom hall
    rcases hgrow way d.2 hway with heq | hfound
    · exact hkeep _ (by simp [heq])
    · exact hfound

omit [BEq C] in
/-- A search whose result passes a test has a result. -/
theorem exists_of_any {α : Type} {x : Search α} {test : α → Bool}
    (h : (x.run.bind Except.toOption).any test = true) :
    ∃ a, x.run = some (.ok a) ∧ test a = true := by
  obtain ⟨a, ha, htest⟩ := (Option.any_eq_true _ _).mp h
  obtain ⟨r, hr, ha⟩ := Option.bind_eq_some_iff.mp ha
  cases r with
  | error e => cases ha
  | ok b => exact ⟨b, hr, Option.some.inj ha ▸ htest⟩

/-- Around the block, the table has four plans. A search for simple plans finds them and one more,
which comes to the corner across the other way round. -/
theorem shortest_sound_block : ∃ t found,
    (shortestTable blockMachine blockOptions 5).run = some (.ok t) ∧
    (simple blockMachine blockOptions 5).run = some (.ok found) ∧
    t.plans.map (fun p => p.events.map Event.type) =
      [[], ["RIGHT"], ["LEFT"], ["RIGHT", "LEFT"]] ∧
    found.map (fun p => p.events.map Event.type) =
      [[], ["RIGHT"], ["RIGHT", "LEFT"], ["LEFT"], ["LEFT", "LEFT"]] ∧
    (∀ p ∈ t.plans, ∃ snapshots, Retraces blockMachine blockOptions p snapshots) ∧
      (t.plans.map Plan.fingerprint).Nodup ∧
      (∀ f p, t.get? f = some p ↔ p ∈ t.plans ∧ p.fingerprint = f) ∧
      (∀ (i : Nat) (p : Plan Unit), t.plans[i]? = some p → ∀ k < p.size,
        ∃ (j : Nat) (q : Plan Unit), j < i ∧ t.plans[j]? = some q ∧ q.steps = p.steps.take k) ∧
      ∀ p ∈ t.plans, p ∈ found := by
  have hrun : ((shortestTable blockMachine blockOptions 5).run.bind Except.toOption).any (fun t =>
      t.plans.map (fun p => p.events.map Event.type) =
        [[], ["RIGHT"], ["LEFT"], ["RIGHT", "LEFT"]]) = true := by decide +kernel
  have hall : ((simple blockMachine blockOptions 5).run.bind Except.toOption).any (fun found =>
      found.map (fun p => p.events.map Event.type) =
        [[], ["RIGHT"], ["RIGHT", "LEFT"], ["LEFT"], ["LEFT", "LEFT"]]) = true := by
    decide +kernel
  obtain ⟨t, ht, htypes⟩ := exists_of_any hrun
  obtain ⟨found, hfound, hothers⟩ := exists_of_any hall
  obtain ⟨hretraces, hdistinct, hget, hparts, hsimple⟩ := shortest_sound ht
  exact ⟨t, found, ht, hfound, of_decide_eq_true htypes, of_decide_eq_true hothers, hretraces,
    hdistinct, hget, hparts, hsimple 5 found hfound⟩

end Statechart.Search
