import Mathlib.Data.List.Lex
import Mathlib.Data.List.Nodup
import Mathlib.Data.Prod.Lex
import Statechart.Proofs.Search.Traced

/-!
# Shortest plans are shortest

The search works through its plans in the order they were found, and it finds them in the order
of their `rank`: shorter ones first, and those of one length by the places of their events among
the candidates. What holds while it does so is `Progress`. It speaks of the plans found only;
that no other plan has a smaller rank (`Progress.least`) follows once all of them have been
worked through, and rests on fingerprints being consistent: any other way can be followed step
by step on the plans found, which are never behind it.

* `Progress.tryEvent`, `Progress.tryAll`, `Progress.shortestFrom`: one candidate, all candidates
  of a plan, all plans.
* `shortest_spec`: what a search that succeeds has found.
-/
namespace Statechart.Search

variable {C E A : Type} [BEq C] {m : Machine C E A} {o : SearchOptions C}

/-! ## The order in which plans are found -/

/-- Shorter sequences first, and those of one length in lexicographic order. -/
def rank (places : List Nat) : ℕ ×ₗ List Nat := toLex (places.length, places)

theorem rank_lt_rank {a b : List Nat} :
    rank a < rank b ↔ a.length < b.length ∨ a.length = b.length ∧ a < b :=
  Prod.Lex.toLex_lt_toLex

theorem rank_le_rank {a b : List Nat} :
    rank a ≤ rank b ↔ a.length < b.length ∨ a.length = b.length ∧ a ≤ b :=
  Prod.Lex.toLex_le_toLex

theorem append_lt_append {a b : List Nat} (hlen : a.length = b.length) (h : a < b)
    (s t : List Nat) : a ++ s < b ++ t := by
  induction a generalizing b with
  | nil =>
    obtain rfl := List.length_eq_zero_iff.mp hlen.symm
    exact absurd h (List.not_lt_nil _)
  | cons x a ih =>
    cases b with
    | nil => simp at hlen
    | cons y b =>
      rw [List.cons_append, List.cons_append, List.cons_lt_cons_iff]
      rcases List.cons_lt_cons_iff.mp h with hxy | ⟨rfl, hab⟩
      · exact .inl hxy
      · exact .inr ⟨rfl, ih (by simpa using hlen) hab⟩

theorem rank_snoc_lt {a b : List Nat} (h : rank a < rank b) (i j : Nat) :
    rank (a ++ [i]) < rank (b ++ [j]) := by
  rw [rank_lt_rank] at h ⊢
  rcases h with hlt | ⟨hlen, hlt⟩
  · exact .inl (by simpa using hlt)
  · exact .inr ⟨by simpa using hlen, append_lt_append hlen hlt _ _⟩

theorem rank_snoc_lt_snoc (a : List Nat) {i j : Nat} (h : i < j) :
    rank (a ++ [i]) < rank (a ++ [j]) := by
  refine rank_lt_rank.mpr (.inr ⟨by simp, ?_⟩)
  induction a with
  | nil => exact List.cons_lt_cons_iff.mpr (.inl h)
  | cons x a ih => simpa [List.cons_lt_cons_iff] using ih

theorem rank_snoc_le {a b : List Nat} (h : rank a ≤ rank b) (i : Nat) :
    rank (a ++ [i]) ≤ rank (b ++ [i]) := by
  rcases h.lt_or_eq with hlt | heq
  · exact (rank_snoc_lt hlt i i).le
  · obtain rfl : a = b := congrArg (fun r => (ofLex r).2) heq
    exact le_rfl

theorem rank_nil_lt_snoc (a : List Nat) (i : Nat) : rank [] < rank (a ++ [i]) :=
  rank_lt_rank.mpr (.inl (by simp))

/-! ## One candidate -/

theorem getElem?_append_of_some {α : Type} {l : List α} {i : Nat} {a : α} (h : l[i]? = some a)
    (more : List α) : (l ++ more)[i]? = some a := by
  rw [List.getElem?_append_left (List.getElem?_eq_some_iff.mp h).1, h]

theorem tryEvent_ok {current : Plan C} {plans found : List (Plan C)} {event : Event}
    (h : (tryEvent m o current plans event).run = some (.ok found)) :
    ∃ t, m.transition current.snapshot event = .ok t ∧
      ((∃ p ∈ plans, p.fingerprint = o.snapshotFingerprint t) ∧ found = plans ∨
        (∀ p ∈ plans, p.fingerprint ≠ o.snapshotFingerprint t) ∧
          found = plans ++ [current.extend event t (o.snapshotFingerprint t)]) := by
  rw [tryEvent, run_bind] at h
  obtain ⟨t, ht, h⟩ := h
  refine ⟨t, run_ofResult.mp ht, ?_⟩
  dsimp only at h
  split at h
  · rename_i hr
    exact .inl ⟨by simpa [Plan.reaches] using hr, (run_pure.mp h).symm⟩
  · rename_i hr
    obtain ⟨_, _, h⟩ := run_bind.mp h
    exact .inr ⟨by simpa [Plan.reaches] using hr, (run_pure.mp h).symm⟩

/-! ## Plans that are found stay -/

section

variable {current : Plan C} {plans found : List (Plan C)}

theorem prefix_of_tryEvent {event : Event}
    (h : (tryEvent m o current plans event).run = some (.ok found)) : plans <+: found := by
  obtain ⟨t, -, ⟨-, rfl⟩ | ⟨-, rfl⟩⟩ := tryEvent_ok h
  · exact List.prefix_rfl
  · exact List.prefix_append _ _

theorem prefix_of_tryAll {events : List (String × Event)}
    (h : (events.foldlM (fun plans e => tryEvent m o current plans e.2) plans).run =
      some (.ok found)) : plans <+: found :=
  run_foldlM (P := fun found => plans <+: found)
    (fun _ _ _ _ hplans hnext => hplans.trans (prefix_of_tryEvent hnext)) List.prefix_rfl h

theorem prefix_of_shortestFrom {fuel position : Nat}
    (h : (shortestFrom m o fuel position plans).run = some (.ok found)) : plans <+: found := by
  induction fuel generalizing position plans with
  | zero => exact absurd h run_outOfFuel
  | succ fuel ih =>
    rw [shortestFrom] at h
    split at h
    · exact run_pure.mp h ▸ List.prefix_rfl
    · obtain ⟨next, hnext, h⟩ := run_bind.mp h
      exact (prefix_of_tryAll hnext).trans (ih h)

end

/-! ## All candidates -/

/-- All candidates of the plans before a position have been tried, and so many of the plan at
the position. -/
def Tried (position count k j : Nat) : Prop := k < position ∨ k = position ∧ j < count

theorem Tried.succ {position count k j : Nat} (h : Tried position count k j) :
    Tried position (count + 1) k j := by
  unfold Tried at *; omega

theorem Tried.of_succ {position count k j : Nat} (h : Tried position (count + 1) k j) :
    Tried position count k j ∨ k = position ∧ j = count := by
  unfold Tried at *; omega

/-- What holds of the plans found so far, each kept with the places of its events. -/
structure Progress (m : Machine C E A) (o : SearchOptions C) (position count : Nat)
    (found : List (List Nat × Plan C)) : Prop where
  traced : ∀ d ∈ found, Traced m o d.1 d.2
  start : ∃ d ∈ found, d.1 = []
  distinct : (found.map fun d => d.2.fingerprint).Nodup
  sorted : found.Pairwise fun a b => rank a.1 < rank b.1
  /-- Every plan with events goes on from one of the plans worked through. -/
  origin : ∀ d ∈ found, d.1 = [] ∨
    ∃ k j c, Tried position count k j ∧ found[k]? = some c ∧ d.1 = c.1 ++ [j]
  /-- Where a candidate that was tried leads, there is a plan that is not behind it. -/
  tried : ∀ k j c e, Tried position count k j → found[k]? = some c →
    (o.candidates c.2.snapshot)[j]? = some e →
    ∃ t, m.transition c.2.snapshot e.2 = .ok t ∧
      ∃ d ∈ found, d.2.fingerprint = o.snapshotFingerprint t ∧ rank d.1 ≤ rank (c.1 ++ [j])

namespace Progress

variable {position count : Nat} {found : List (List Nat × Plan C)} {c : List Nat × Plan C}

theorem initial {first : Plan C} (h : Traced m o [] first) : Progress m o 0 0 [([], first)] where
  traced := by simpa using h
  start := by simp
  distinct := by simp
  sorted := by simp
  origin := by simp
  tried := by simp [Tried]

/-- The plan for the candidate to be tried comes behind all others. -/
theorem lt_snoc (h : Progress m o position count found) (hc : found[position]? = some c)
    {d : List Nat × Plan C} (hd : d ∈ found) : rank d.1 < rank (c.1 ++ [count]) := by
  rcases h.origin d hd with hnil | ⟨k, j, b, ⟨hk⟩ | ⟨rfl, hj⟩, hb, heq⟩
  · exact hnil ▸ rank_nil_lt_snoc _ _
  · rw [heq]
    obtain ⟨hkl, rfl⟩ := List.getElem?_eq_some_iff.mp hb
    obtain ⟨hpl, rfl⟩ := List.getElem?_eq_some_iff.mp hc
    exact rank_snoc_lt (List.pairwise_iff_getElem.mp h.sorted k position hkl hpl ‹_›) _ _
  · obtain rfl := Option.some.inj (hb.symm.trans hc)
    exact heq ▸ rank_snoc_lt_snoc _ hj

section Candidate

variable {e : String × Event} {t : Snapshot C}

theorem tried_append (h : Progress m o position count found) (hc : found[position]? = some c)
    (he : (o.candidates c.2.snapshot)[count]? = some e)
    (ht : m.transition c.2.snapshot e.2 = .ok t) (more : List (List Nat × Plan C))
    (hd : ∃ d ∈ found ++ more, d.2.fingerprint = o.snapshotFingerprint t ∧
      rank d.1 ≤ rank (c.1 ++ [count])) (k j : Nat) (b : List Nat × Plan C) (e' : String × Event)
    (hkj : Tried position (count + 1) k j) (hb : (found ++ more)[k]? = some b)
    (he' : (o.candidates b.2.snapshot)[j]? = some e') :
    ∃ t, m.transition b.2.snapshot e'.2 = .ok t ∧
      ∃ d ∈ found ++ more, d.2.fingerprint = o.snapshotFingerprint t ∧
        rank d.1 ≤ rank (b.1 ++ [j]) := by
  have hposition : position < found.length := (List.getElem?_eq_some_iff.mp hc).1
  rw [List.getElem?_append_left (by unfold Tried at hkj; omega)] at hb
  rcases hkj.of_succ with hkj | ⟨rfl, rfl⟩
  · obtain ⟨t', ht', d', hd', hd''⟩ := h.tried k j b e' hkj hb he'
    exact ⟨t', ht', d', List.mem_append_left _ hd', hd''⟩
  · obtain rfl := Option.some.inj (hb.symm.trans hc)
    obtain rfl := Option.some.inj (he'.symm.trans he)
    exact ⟨t, ht, hd⟩

theorem pass (h : Progress m o position count found) (hc : found[position]? = some c)
    (he : (o.candidates c.2.snapshot)[count]? = some e)
    (ht : m.transition c.2.snapshot e.2 = .ok t)
    (hold : ∃ d ∈ found, d.2.fingerprint = o.snapshotFingerprint t) :
    Progress m o position (count + 1) found := by
  obtain ⟨d, hd, hfp⟩ := hold
  have htried := h.tried_append hc he ht []
    ⟨d, by simpa using hd, hfp, (h.lt_snoc hc hd).le⟩
  rw [List.append_nil] at htried
  exact { h with
    origin := fun d hd => (h.origin d hd).imp_right fun ⟨k, j, b, hkj, hb⟩ =>
      ⟨k, j, b, hkj.succ, hb⟩
    tried := htried }

theorem record (h : Progress m o position count found) (hc : found[position]? = some c)
    (he : (o.candidates c.2.snapshot)[count]? = some e)
    (ht : m.transition c.2.snapshot e.2 = .ok t)
    (hnew : ∀ d ∈ found, d.2.fingerprint ≠ o.snapshotFingerprint t) :
    Progress m o position (count + 1)
      (found ++ [(c.1 ++ [count], c.2.extend e.2 t (o.snapshotFingerprint t))]) := by
  generalize hd : (c.1 ++ [count], c.2.extend e.2 t (o.snapshotFingerprint t)) = d
  have hmem : ∀ {a}, a ∈ found ++ [d] ↔ a ∈ found ∨ a = d := by simp
  have hfp : d.2.fingerprint = o.snapshotFingerprint t := hd ▸ rfl
  have hplaces : d.1 = c.1 ++ [count] := hd ▸ rfl
  exact {
    traced := fun a ha => by
      rcases hmem.mp ha with ha | rfl
      · exact h.traced a ha
      · exact hd ▸ .extend (h.traced c (List.mem_of_getElem? hc)) he ht
    start := h.start.imp fun a ha => ⟨hmem.mpr (.inl ha.1), ha.2⟩
    distinct := by
      rw [List.map_append, List.nodup_append]
      refine ⟨h.distinct, by simp, fun f hf g hg => ?_⟩
      obtain ⟨a, ha, rfl⟩ := List.mem_map.mp hf
      obtain rfl : g = d.2.fingerprint := by simpa using hg
      exact hfp ▸ hnew a ha
    sorted := List.pairwise_append.mpr ⟨h.sorted, by simp, fun a ha b hb => by
      rw [List.mem_singleton.mp hb, hplaces]
      exact h.lt_snoc hc ha⟩
    origin := fun a ha => by
      rcases hmem.mp ha with ha | rfl
      · exact (h.origin a ha).imp_right fun ⟨k, j, b, hkj, hb, heq⟩ =>
          ⟨k, j, b, hkj.succ, getElem?_append_of_some hb _, heq⟩
      · exact .inr ⟨position, count, c, .inr ⟨rfl, by omega⟩, getElem?_append_of_some hc _, hplaces⟩
    tried := h.tried_append hc he ht [d] ⟨d, hmem.mpr (.inr rfl), hfp, hplaces ▸ le_rfl⟩ }

theorem tryEvent (h : Progress m o position count found) (hc : found[position]? = some c)
    (he : (o.candidates c.2.snapshot)[count]? = some e) {plans : List (Plan C)}
    (hp : (Search.tryEvent m o c.2 (found.map Prod.snd) e.2).run = some (.ok plans)) :
    ∃ more, Progress m o position (count + 1) (found ++ more) ∧
      plans = (found ++ more).map Prod.snd := by
  obtain ⟨t, ht, ⟨hold, rfl⟩ | ⟨hnew, rfl⟩⟩ := tryEvent_ok hp
  · obtain ⟨_, hmem, hfp⟩ := hold
    obtain ⟨d, hd, rfl⟩ := List.mem_map.mp hmem
    refine ⟨[], ?_, by simp⟩
    rw [List.append_nil]
    exact h.pass hc he ht ⟨d, hd, hfp⟩
  · exact ⟨_, h.record hc he ht fun d hd => hnew _ (List.mem_map_of_mem hd), by simp⟩

end Candidate

/-- All candidates of a plan, from some place on. -/
theorem tryAll (done : List (String × Event)) {rest : List (String × Event)} {plans : List (Plan C)}
    (h : Progress m o position done.length found) (hc : found[position]? = some c)
    (hall : o.candidates c.2.snapshot = done ++ rest)
    (hp : (rest.foldlM (fun plans e => Search.tryEvent m o c.2 plans e.2)
      (found.map Prod.snd)).run = some (.ok plans)) :
    ∃ more, Progress m o position (o.candidates c.2.snapshot).length (found ++ more) ∧
      plans = (found ++ more).map Prod.snd := by
  induction rest generalizing done found with
  | nil =>
    refine ⟨[], ?_, by simpa using (run_pure.mp hp).symm⟩
    rwa [hall, List.append_nil, List.append_nil]
  | cons e rest ih =>
    rw [List.foldlM_cons, run_bind] at hp
    obtain ⟨next, hnext, hp⟩ := hp
    obtain ⟨first, hprogress, rfl⟩ := h.tryEvent hc (by simp [hall]) hnext
    obtain ⟨more, hmore, rfl⟩ := ih (done ++ [e]) (by simpa using hprogress)
      (getElem?_append_of_some hc first) (by simpa using hall) hp
    exact ⟨first ++ more, by rwa [← List.append_assoc], by rw [← List.append_assoc]⟩

/-- A plan whose candidates have all been tried is worked through. -/
theorem advance (h : Progress m o position (o.candidates c.2.snapshot).length found)
    (hc : found[position]? = some c) : Progress m o (position + 1) 0 found :=
  { h with
    origin := fun d hd => (h.origin d hd).imp_right fun ⟨k, j, b, hkj, hb⟩ =>
      ⟨k, j, b, by unfold Tried at *; omega, hb⟩
    tried := fun k j b e hkj hb he => by
      refine h.tried k j b e ?_ hb he
      rcases Nat.lt_or_ge k position with hk | hk
      · exact .inl hk
      · obtain rfl : k = position := by unfold Tried at hkj; omega
        obtain rfl := Option.some.inj (hb.symm.trans hc)
        exact .inr ⟨rfl, (List.getElem?_eq_some_iff.mp he).1⟩ }

theorem shortestFrom {fuel : Nat} {plans : List (Plan C)} (h : Progress m o position 0 found)
    (hp : (shortestFrom m o fuel position (found.map Prod.snd)).run = some (.ok plans)) :
    ∃ all position, Progress m o position 0 all ∧ all.length ≤ position ∧
      plans = all.map Prod.snd := by
  induction fuel generalizing position found with
  | zero => exact absurd hp run_outOfFuel
  | succ fuel ih =>
    rw [Search.shortestFrom] at hp
    rw [List.getElem?_map] at hp
    cases hc : found[position]? with
    | none =>
      rw [hc] at hp
      exact ⟨found, position, h, List.getElem?_eq_none_iff.mp hc, (run_pure.mp hp).symm⟩
    | some c =>
      rw [hc] at hp
      obtain ⟨plans, hall, hp⟩ := run_bind.mp hp
      obtain ⟨more, hmore, rfl⟩ := h.tryAll [] hc rfl hall
      exact ih (hmore.advance (getElem?_append_of_some hc more)) hp

/-- Once all plans have been worked through, every way leads to a fingerprint that one of them
leads to, and this one is not behind. -/
theorem least (h : Progress m o position 0 found) (hend : found.length ≤ position)
    (hc : Consistent m o) {places : List Nat} {p : Plan C} (hp : Traced m o places p) :
    ∃ d ∈ found, d.2.fingerprint = p.fingerprint ∧ rank d.1 ≤ rank places := by
  induction hp with
  | start hs =>
    obtain ⟨d, hd, hnil⟩ := h.start
    obtain ⟨s, hs', heq⟩ := (hnil ▸ h.traced d hd).of_nil
    obtain rfl := Except.ok.inj (hs.symm.trans hs')
    exact ⟨d, hd, by rw [heq], by rw [hnil]⟩
  | @extend places p i e t hp he ht ih =>
    obtain ⟨d, hd, hfp, hrank⟩ := ih
    have hdp : o.snapshotFingerprint d.2.snapshot = o.snapshotFingerprint p.snapshot := by
      rw [← (h.traced d hd).fingerprint, ← hp.fingerprint, hfp]
    have hcand := hc.candidates (h.traced d hd).reached hp.reached hdp
    obtain ⟨k, hk⟩ := List.getElem?_of_mem hd
    have htried : Tried position 0 k i :=
      .inl ((List.getElem?_eq_some_iff.mp hk).1.trans_le hend)
    obtain ⟨t', ht', d', hd', hfp', hrank'⟩ := h.tried k i d e htried hk (hcand ▸ he)
    refine ⟨d', hd', ?_, hrank'.trans (rank_snoc_le hrank i)⟩
    rw [hfp']
    exact hc.leads (h.traced d hd).reached hp.reached hdp
      (hcand ▸ List.mem_of_getElem? he) ht' ht

end Progress

theorem progress_of_shortest {fuel : Nat} {plans : List (Plan C)}
    (h : (shortest m o fuel).run = some (.ok plans)) :
    ∃ found position, Progress m o position 0 found ∧ found.length ≤ position ∧
      plans = found.map Prod.snd := by
  rw [shortest, run_bind] at h
  obtain ⟨first, hfirst, h⟩ := h
  rw [start, run_bind] at hfirst
  obtain ⟨s, hs, hfirst⟩ := hfirst
  obtain rfl := run_pure.mp hfirst
  exact (Progress.initial (.start (run_ofResult.mp hs))).shortestFrom h

/-- Shortest plans, where fingerprints are consistent: when the search succeeds,

* it has one plan for each fingerprint of the snapshots that candidates lead to, and no other;
* of all ways to its fingerprint a plan has the fewest events, and of those with that many its
  events come first among the candidates;
* no plan is shorter than one listed before it. -/
theorem shortest_spec {fuel : Nat} {plans : List (Plan C)} (hc : Consistent m o)
    (h : (shortest m o fuel).run = some (.ok plans)) :
    (plans.map Plan.fingerprint).Nodup ∧
      (∀ f, f ∈ plans.map Plan.fingerprint ↔ ∃ s, Reached m o s ∧ o.snapshotFingerprint s = f) ∧
      (∀ p ∈ plans, ∃ places, Traced m o places p ∧ ∀ others q, Traced m o others q →
        q.fingerprint = p.fingerprint →
          p.size ≤ q.size ∧ (q.size = p.size → places ≤ others)) ∧
      plans.Pairwise fun p q => p.size ≤ q.size := by
  obtain ⟨found, position, hp, hend, rfl⟩ := progress_of_shortest h
  have hsize : ∀ d ∈ found, d.2.size = d.1.length := fun d hd => (hp.traced d hd).size
  refine ⟨by simpa [Function.comp_def] using hp.distinct, fun f => ⟨fun hf => ?_, ?_⟩, ?_, ?_⟩
  · obtain ⟨p, hmem, rfl⟩ := List.mem_map.mp hf
    obtain ⟨d, hd, rfl⟩ := List.mem_map.mp hmem
    exact ⟨_, (hp.traced d hd).reached, (hp.traced d hd).fingerprint.symm⟩
  · rintro ⟨s, hs, rfl⟩
    obtain ⟨places, p, htraced, rfl⟩ := hs.traced
    obtain ⟨d, hd, hfp, -⟩ := hp.least hend hc htraced
    exact List.mem_map.mpr ⟨d.2, List.mem_map_of_mem hd, hfp.trans htraced.fingerprint⟩
  · rintro _ hmem
    obtain ⟨d, hd, rfl⟩ := List.mem_map.mp hmem
    refine ⟨d.1, hp.traced d hd, fun others q hq hfp => ?_⟩
    obtain ⟨d', hd', hfp', hrank⟩ := hp.least hend hc hq
    -- fingerprints are recorded once, so the plan that is not behind is the one recorded
    obtain rfl : d' = d := List.inj_on_of_nodup_map hp.distinct hd' hd (hfp'.trans hfp)
    rw [rank_le_rank] at hrank
    rw [hsize d' hd, hq.size]
    exact ⟨by omega, fun hlen => (hrank.resolve_left (by omega)).2⟩
  · refine List.pairwise_map.mpr (hp.sorted.imp_of_mem fun ha hb hlt => ?_)
    rw [hsize _ ha, hsize _ hb]
    rw [rank_lt_rank] at hlt
    omega

/-- A walk around a block: both ways from the start lead to the corner across. -/
def block : Definition := {
  key := "block"
  initial := some "start"
  states := [
    { key := "start"
      on := [⟨"LEFT", [{ target := ["west"] }]⟩, ⟨"RIGHT", [{ target := ["east"] }]⟩] },
    { key := "west", on := [⟨"LEFT", [{ target := ["across"] }]⟩] },
    { key := "east", on := [⟨"LEFT", [{ target := ["across"] }]⟩] },
    { key := "across", kind := some .final }] }

def blockMachine : Machine Unit Unit Unit := Machine.buildD {} () 10 block

def blockOptions : SearchOptions Unit :=
  { events := [{ type := "RIGHT" }, { type := "LEFT" }]
    snapshotFingerprint := Snapshot.fingerprint fun _ => .null }

/-- Snapshots of the walk, and those that one event more leads to. -/
def around (snapshots : List (Snapshot Unit)) : List (Snapshot Unit) :=
  (snapshots ++ snapshots.flatMap fun s => blockOptions.events.flatMap fun e =>
    (blockMachine.transition s e).toOption.toList).eraseDups

theorem shortest_spec_block : ∃ plans, Consistent blockMachine blockOptions ∧
    (shortest blockMachine blockOptions 5).run = some (.ok plans) ∧
    plans.map (fun p => p.events.map Event.type) =
      [[], ["RIGHT"], ["LEFT"], ["RIGHT", "LEFT"]] ∧
    (plans.map Plan.fingerprint).Nodup ∧
      (∀ f, f ∈ plans.map Plan.fingerprint ↔
        ∃ s, Reached blockMachine blockOptions s ∧ blockOptions.snapshotFingerprint s = f) ∧
      (∀ p ∈ plans, ∃ places, Traced blockMachine blockOptions places p ∧
        ∀ others q, Traced blockMachine blockOptions others q → q.fingerprint = p.fingerprint →
          p.size ≤ q.size ∧ (q.size = p.size → places ≤ others)) ∧
      plans.Pairwise fun p q => p.size ≤ q.size := by
  have hc : Consistent blockMachine blockOptions :=
    .of_closed (around (around (around blockMachine.initial.toOption.toList)))
      (by decide +kernel) (by decide +kernel) (by decide +kernel)
  have hrun : ((shortest blockMachine blockOptions 5).run.bind Except.toOption).any (fun plans =>
      plans.map (fun p => p.events.map Event.type) =
        [[], ["RIGHT"], ["LEFT"], ["RIGHT", "LEFT"]]) = true := by decide +kernel
  obtain ⟨plans, hplans, hevents⟩ := (Option.any_eq_true _ _).mp hrun
  obtain ⟨found, hrun, hplans⟩ := Option.bind_eq_some_iff.mp hplans
  cases found with
  | error e => cases hplans
  | ok found =>
    obtain rfl := Option.some.inj hplans
    exact ⟨found, hc, hrun, of_decide_eq_true hevents, shortest_spec hc hrun⟩

end Statechart.Search
