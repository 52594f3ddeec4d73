import Mathlib.Data.List.Induction
import Statechart.Proofs.Search.Recorded

/-!
# Simple plans are the ways without repetition

A depth-first search grows one plan at a time and keeps the fingerprints along it, so that it
never comes to one of them again. What it adds while it works on the candidates of a plan are the
ways that go on from there with one of the candidates tried so far (`Branches`). Each candidate
adds either nothing, if it leads back onto the way, or the plan that it makes and all that goes
on from that one, which is a row of branches again, all behind those of the candidates before.

* `Branches.skip`, `Branches.descend`: one candidate.
* `enumerates`: all ways that go on from a plan, by induction on the events left.
* `simple_spec`: what a search that succeeds has found.
-/
namespace Statechart.Search

variable {C E A : Type} [BEq C] {m : Machine C E A} {o : SearchOptions C} {first : Snapshot C}
  {places : List Nat} {p q : Plan C}

/-! ## The order of ways -/

/-- One way comes before another, both given by the places of their events: it is a part of the
other from the start on, or where they part it goes on with the earlier candidate. -/
def Precedes (a b : List Nat) : Prop :=
  (∃ i rest, b = a ++ i :: rest) ∨
    ∃ common i j rest rest', a = common ++ i :: rest ∧ b = common ++ j :: rest' ∧ i < j

namespace Precedes

variable {a b : List Nat}

theorem nil (i : Nat) (rest : List Nat) : Precedes [] (i :: rest) := .inl ⟨i, rest, rfl⟩

theorem of_lt {i j : Nat} (h : i < j) (rest rest' : List Nat) :
    Precedes (i :: rest) (j :: rest') := .inr ⟨[], i, j, rest, rest', rfl, rfl, h⟩

theorem cons (h : Precedes a b) (i : Nat) : Precedes (i :: a) (i :: b) := by
  rcases h with ⟨j, rest, rfl⟩ | ⟨common, j, k, rest, rest', rfl, rfl, hjk⟩
  · exact .inl ⟨j, rest, rfl⟩
  · exact .inr ⟨i :: common, j, k, rest, rest', rfl, rfl, hjk⟩

theorem ne (h : Precedes a b) : a ≠ b := by
  rcases h with ⟨i, rest, rfl⟩ | ⟨common, i, j, rest, rest', rfl, rfl, hij⟩
  · exact fun he => by simpa using congrArg List.length he
  · intro he
    obtain rfl := (List.cons.inj (List.append_cancel_left he)).1
    exact Nat.lt_irrefl i hij

end Precedes

/-! ## Ways and their parts -/

/-- The fingerprints along a plan, that of the start first. -/
def along (o : SearchOptions C) (first : Snapshot C) (p : Plan C) : List String :=
  (first :: p.steps.map PlanStep.snapshot).map o.snapshotFingerprint

omit [BEq C] in
theorem along_extend (event : Event) (t : Snapshot C) :
    along o first (p.extend event t (o.snapshotFingerprint t)) =
      along o first p ++ [o.snapshotFingerprint t] := by
  simp [along, Plan.extend]

namespace Traced

theorem of_append {rest : List Nat} (hq : Traced m o (places ++ rest) q) :
    ∃ p steps, Traced m o places p ∧ q.steps = p.steps ++ steps := by
  induction rest using List.reverseRecOn generalizing q with
  | nil => exact ⟨q, [], by simpa using hq, (List.append_nil _).symm⟩
  | append_singleton rest i ih =>
    rw [← List.append_assoc] at hq
    obtain ⟨before, e, t, hbefore, -, -, rfl⟩ := hq.of_snoc
    obtain ⟨p, steps, hp, hsteps⟩ := ih hbefore
    exact ⟨p, steps ++ [⟨e.2, t, o.snapshotFingerprint t⟩], hp, by simp [Plan.extend, hsteps]⟩

/-- A way without repetition that goes on from a plan does so with a candidate that leads to a new
fingerprint. -/
theorem branch {i : Nat} {rest : List Nat} (hp : Traced m o places p)
    (hq : Traced m o (places ++ i :: rest) q) (hdistinct : (along o first q).Nodup) :
    ∃ e t, (o.candidates p.snapshot)[i]? = some e ∧ m.transition p.snapshot e.2 = .ok t ∧
      o.snapshotFingerprint t ∉ along o first p := by
  rw [List.append_cons] at hq
  obtain ⟨child, steps, hchild, hsteps⟩ := hq.of_append
  obtain ⟨parent, e, t, hparent, he, ht, rfl⟩ := hchild.of_snoc
  obtain rfl := hparent.unique hp
  refine ⟨e, t, he, ht, fun hmem => ?_⟩
  have halong : along o first q = along o first (parent.extend e.2 t (o.snapshotFingerprint t)) ++
      (steps.map PlanStep.snapshot).map o.snapshotFingerprint := by
    simp [along, hsteps]
  rw [halong, along_extend, List.append_assoc, List.nodup_append] at hdistinct
  exact hdistinct.2.2 _ hmem _ (by simp) rfl

/-- The events of a plan say where they stand among the candidates. -/
theorem places_unique {others : List Nat} (hp : Traced m o places p) (hq : Traced m o others q)
    (h : p.events = q.events) : places = others := by
  induction hp generalizing others q with
  | start hs =>
    have hsize : q.size = 0 := by simpa [Plan.events, Plan.size] using (congrArg List.length h).symm
    exact (List.length_eq_zero_iff.mp (hq.size.symm.trans hsize)).symm
  | @extend places p i e t hp he ht ih =>
    cases hq with
    | start hs => simp [Plan.events, Plan.extend] at h
    | @extend others q j e' t' hq he' ht' =>
      have hevents : p.events ++ [e.2] = q.events ++ [e'.2] := by
        simpa [Plan.events, Plan.extend] using h
      obtain ⟨hinit, hlast⟩ := List.append_inj' hevents rfl
      obtain rfl := ih hq hinit
      obtain rfl := hp.unique hq
      -- Candidates of one event have one fingerprint, so they stand at one place.
      have hkey : e.1 = e'.1 := by
        rw [candidates_fingerprint (List.mem_of_getElem? he),
          candidates_fingerprint (List.mem_of_getElem? he'), List.head_eq_of_cons_eq hlast]
      have hi := (List.getElem?_eq_some_iff.mp he).1
      have hij : i = j := (List.getElem?_inj (by simpa using hi) (candidates_nodup o p.snapshot)).mp
        (by rw [List.getElem?_map, List.getElem?_map, he, he', Option.map_some, hkey]; rfl)
      rw [hij]

end Traced

/-! ## One candidate -/

/-- Tries one candidate of a plan: unless it leads back onto the way, the plan that it makes is
added, and all that goes on from there. -/
def tryBranch (m : Machine C E A) (o : SearchOptions C) (fuel : Nat) (current : Plan C)
    (onPath : List String) (plans : List (Plan C)) (e : String × Event) :
    Search (List (Plan C)) := do
  let next ← ofResult (m.transition current.snapshot e.2)
  let fingerprint := o.snapshotFingerprint next
  if onPath.contains fingerprint then return plans
  o.checkLimit plans.length
  let plan := current.extend e.2 next fingerprint
  simpleFrom m o fuel plan (fingerprint :: onPath) (plans ++ [plan])

theorem simpleFrom_succ (m : Machine C E A) (o : SearchOptions C) (fuel : Nat) (current : Plan C)
    (onPath : List String) (plans : List (Plan C)) :
    simpleFrom m o (fuel + 1) current onPath plans =
      (o.candidates current.snapshot).foldlM (tryBranch m o fuel current onPath) plans := rfl

theorem tryBranch_ok {fuel : Nat} {current : Plan C} {onPath : List String}
    {plans found : List (Plan C)} {e : String × Event}
    (h : (tryBranch m o fuel current onPath plans e).run = some (.ok found)) :
    ∃ t, m.transition current.snapshot e.2 = .ok t ∧
      (o.snapshotFingerprint t ∈ onPath ∧ found = plans ∨
        o.snapshotFingerprint t ∉ onPath ∧
          (simpleFrom m o fuel (current.extend e.2 t (o.snapshotFingerprint t))
            (o.snapshotFingerprint t :: onPath)
            (plans ++ [current.extend e.2 t (o.snapshotFingerprint t)])).run = some (.ok found)) := by
  rw [tryBranch, run_bind] at h
  obtain ⟨t, ht, h⟩ := h
  refine ⟨t, run_ofResult.mp ht, ?_⟩
  dsimp only at h
  split at h
  · rename_i hon
    exact .inl ⟨List.contains_iff_mem.mp hon, (run_pure.mp h).symm⟩
  · rename_i hon
    obtain ⟨-, -, h⟩ := run_bind.mp h
    exact .inr ⟨fun hmem => hon (List.contains_iff_mem.mpr hmem), h⟩

/-- Every candidate at the end of a plan leads somewhere. -/
def Open (m : Machine C E A) (o : SearchOptions C) (p : Plan C) : Prop :=
  ∀ e ∈ o.candidates p.snapshot, ∃ t, m.transition p.snapshot e.2 = .ok t

/-- The ways without repetition that go on from the plan at `places` with one of its first `count`
candidates, each with the places that it goes on with. -/
structure Branches (m : Machine C E A) (o : SearchOptions C) (first : Snapshot C)
    (places : List Nat) (count : Nat) (ways : List (List Nat × Plan C)) : Prop where
  mem : ∀ rest q, (rest, q) ∈ ways ↔ (∃ i more, rest = i :: more ∧ i < count) ∧
    Traced m o (places ++ rest) q ∧ (along o first q).Nodup
  sorted : ways.Pairwise fun a b => Precedes a.1 b.1
  opened : ∀ d ∈ ways, Open m o d.2

namespace Branches

variable {count : Nat} {ways more : List (List Nat × Plan C)} {e : String × Event} {t : Snapshot C}

theorem none : Branches m o first places 0 [] where
  mem := by simp
  sorted := .nil
  opened := by simp

/-- The candidate leads back onto the way. -/
theorem skip (h : Branches m o first places count ways) (hp : Traced m o places p)
    (he : (o.candidates p.snapshot)[count]? = some e) (ht : m.transition p.snapshot e.2 = .ok t)
    (hon : o.snapshotFingerprint t ∈ along o first p) :
    Branches m o first places (count + 1) ways where
  mem rest q := by
    rw [h.mem]
    refine and_congr_left fun ⟨htraced, hdistinct⟩ => ⟨?_, ?_⟩
    · rintro ⟨i, more, rfl, hi⟩
      exact ⟨i, more, rfl, Nat.lt_succ_of_lt hi⟩
    · rintro ⟨i, more, rfl, hi⟩
      refine ⟨i, more, rfl, Nat.lt_of_le_of_ne (Nat.le_of_lt_succ hi) ?_⟩
      rintro rfl
      obtain ⟨e', t', he', ht', hnew⟩ := hp.branch htraced hdistinct
      obtain rfl := Option.some.inj (he.symm.trans he')
      obtain rfl := Except.ok.inj (ht.symm.trans ht')
      exact hnew hon
  sorted := h.sorted
  opened := h.opened

/-- A plan comes before the ways that go on from it. -/
theorem sorted_cons (h : Branches m o first places count ways) :
    (([], p) :: ways).Pairwise fun a b => Precedes a.1 b.1 := by
  refine List.pairwise_cons.mpr ⟨fun d hd => ?_, h.sorted⟩
  obtain ⟨⟨i, rest, hrest, -⟩, -⟩ := (h.mem d.1 d.2).mp hd
  rw [hrest]
  exact .nil i rest

/-- A plan and the ways that go on from it with any candidate are all ways from there on. -/
theorem mem_cons (h : Branches m o first places (o.candidates p.snapshot).length ways)
    (hp : Traced m o places p) (hdistinct : (along o first p).Nodup) (rest : List Nat)
    (q : Plan C) :
    (rest, q) ∈ ([], p) :: ways ↔ Traced m o (places ++ rest) q ∧ (along o first q).Nodup := by
  rw [List.mem_cons, h.mem, Prod.mk.injEq]
  cases rest with
  | nil =>
    rw [List.append_nil]
    refine ⟨?_, fun hq => .inl ⟨rfl, hq.1.unique hp⟩⟩
    rintro (⟨-, rfl⟩ | ⟨⟨i, more, hmore, -⟩, -⟩)
    · exact ⟨hp, hdistinct⟩
    · cases hmore
  | cons i rest =>
    refine ⟨?_, fun hq => .inr ⟨?_, hq⟩⟩
    · rintro (⟨hrest, -⟩ | ⟨-, hq⟩)
      · cases hrest
      · exact hq
    · obtain ⟨e, t, he, -, -⟩ := hp.branch hq.1 hq.2
      exact ⟨i, rest, rfl, (List.getElem?_eq_some_iff.mp he).1⟩

/-- The candidate leads to a new fingerprint: its plan, and all ways that go on from there, come
behind those of the candidates before. -/
theorem descend (h : Branches m o first places count ways) {child : Plan C}
    (hchild : Traced m o (places ++ [count]) child) (hdistinct : (along o first child).Nodup)
    (hopen : Open m o child)
    (hmore : Branches m o first (places ++ [count]) (o.candidates child.snapshot).length more) :
    Branches m o first places (count + 1)
      (ways ++ (([], child) :: more).map fun d => (count :: d.1, d.2)) where
  mem rest q := by
    have hbehind : (rest, q) ∈ (([], child) :: more).map (fun d => (count :: d.1, d.2)) ↔
        (∃ tail, rest = count :: tail) ∧ Traced m o (places ++ rest) q ∧
          (along o first q).Nodup := by
      rw [List.mem_map]
      constructor
      · rintro ⟨d, hd, heq⟩
        obtain ⟨rfl, rfl⟩ := Prod.mk.inj heq
        rw [List.append_cons]
        exact ⟨⟨d.1, rfl⟩, (hmore.mem_cons hchild hdistinct d.1 d.2).mp hd⟩
      · rintro ⟨⟨tail, rfl⟩, hq⟩
        rw [List.append_cons] at hq
        exact ⟨(tail, q), (hmore.mem_cons hchild hdistinct tail q).mpr hq, rfl⟩
    rw [List.mem_append, h.mem, hbehind, ← or_and_right]
    refine and_congr_left fun _ => ⟨?_, ?_⟩
    · rintro (⟨i, tail, rfl, hi⟩ | ⟨tail, rfl⟩)
      · exact ⟨i, tail, rfl, Nat.lt_succ_of_lt hi⟩
      · exact ⟨count, tail, rfl, Nat.lt_succ_self _⟩
    · rintro ⟨i, tail, rfl, hi⟩
      rcases Nat.lt_or_eq_of_le (Nat.le_of_lt_succ hi) with hlt | rfl
      · exact .inl ⟨i, tail, rfl, hlt⟩
      · exact .inr ⟨tail, rfl⟩
  sorted := by
    refine List.pairwise_append.mpr ⟨h.sorted, ?_, fun a ha b hb => ?_⟩
    · exact List.pairwise_map.mpr (hmore.sorted_cons.imp fun hab => hab.cons count)
    · obtain ⟨⟨i, tail, ha, hi⟩, -⟩ := (h.mem a.1 a.2).mp ha
      obtain ⟨d, -, rfl⟩ := List.mem_map.mp hb
      rw [ha]
      exact .of_lt hi _ _
  opened d hd := by
    rcases List.mem_append.mp hd with hd | hd
    · exact h.opened d hd
    · obtain ⟨b, hb, rfl⟩ := List.mem_map.mp hd
      rcases List.mem_cons.mp hb with rfl | hb
      · exact hopen
      · exact hmore.opened b hb

end Branches

/-! ## All candidates -/

/-- What holds at the plan that a search works on: the fingerprints that it keeps are those along
the plan, none of them twice. -/
structure OnWay (m : Machine C E A) (o : SearchOptions C) (first : Snapshot C)
    (places : List Nat) (p : Plan C) (onPath : List String) : Prop where
  traced : Traced m o places p
  distinct : (along o first p).Nodup
  kept : ∀ f, f ∈ onPath ↔ f ∈ along o first p

theorem OnWay.extend {onPath : List String} (h : OnWay m o first places p onPath) {i : Nat}
    {e : String × Event} {t : Snapshot C} (he : (o.candidates p.snapshot)[i]? = some e)
    (ht : m.transition p.snapshot e.2 = .ok t) (hnew : o.snapshotFingerprint t ∉ onPath) :
    OnWay m o first (places ++ [i]) (p.extend e.2 t (o.snapshotFingerprint t))
      (o.snapshotFingerprint t :: onPath) where
  traced := h.traced.extend he ht
  distinct := by
    rw [along_extend, List.nodup_append]
    refine ⟨h.distinct, by simp, fun f hf g hg hfg => hnew ((h.kept _).mpr ?_)⟩
    rwa [← List.mem_singleton.mp hg, ← hfg]
  kept f := by
    rw [along_extend, List.mem_cons, List.mem_append, List.mem_singleton, h.kept f, or_comm]

/-- With so many events left, a search that succeeds adds the ways that go on from a plan. -/
def Enumerates (m : Machine C E A) (o : SearchOptions C) (first : Snapshot C) (fuel : Nat) : Prop :=
  ∀ {places : List Nat} {p : Plan C} {onPath : List String} {plans found : List (Plan C)},
    OnWay m o first places p onPath →
    (simpleFrom m o fuel p onPath plans).run = some (.ok found) →
    ∃ ways, found = plans ++ ways.map Prod.snd ∧ Open m o p ∧
      Branches m o first places (o.candidates p.snapshot).length ways

section Candidates

variable {fuel : Nat} {onPath : List String} {plans found : List (Plan C)}
  {ways : List (List Nat × Plan C)}

theorem Enumerates.tryBranch (ih : Enumerates m o first fuel) {count : Nat} {e : String × Event}
    (hp : OnWay m o first places p onPath) (he : (o.candidates p.snapshot)[count]? = some e)
    (hways : Branches m o first places count ways)
    (h : (Search.tryBranch m o fuel p onPath plans e).run = some (.ok found)) :
    (∃ t, m.transition p.snapshot e.2 = .ok t) ∧ ∃ more, found = plans ++ more.map Prod.snd ∧
      Branches m o first places (count + 1) (ways ++ more) := by
  obtain ⟨t, ht, ⟨hback, rfl⟩ | ⟨hnew, h⟩⟩ := tryBranch_ok h
  · refine ⟨⟨t, ht⟩, [], (List.append_nil _).symm, ?_⟩
    rw [List.append_nil]
    exact hways.skip hp.traced he ht ((hp.kept _).mp hback)
  · have hchild := hp.extend he ht hnew
    obtain ⟨more, rfl, hopen, hmore⟩ := ih hchild h
    exact ⟨⟨t, ht⟩, _, by simp [Function.comp_def],
      hways.descend hchild.traced hchild.distinct hopen hmore⟩

/-- All candidates, from some place on, add the ways that go on with them. -/
theorem Enumerates.tryBranches (ih : Enumerates m o first fuel)
    (hp : OnWay m o first places p onPath) (done : List (String × Event))
    {rest : List (String × Event)} (hall : o.candidates p.snapshot = done ++ rest)
    (hdone : ∀ e ∈ done, ∃ t, m.transition p.snapshot e.2 = .ok t)
    (hways : Branches m o first places done.length ways)
    (h : (rest.foldlM (Search.tryBranch m o fuel p onPath) plans).run = some (.ok found)) :
    ∃ more, found = plans ++ more.map Prod.snd ∧ Open m o p ∧
      Branches m o first places (o.candidates p.snapshot).length (ways ++ more) := by
  induction rest generalizing done plans ways with
  | nil =>
    rw [List.append_nil] at hall
    refine ⟨[], by simpa using (run_pure.mp h).symm, fun e he => hdone e (hall ▸ he), ?_⟩
    rwa [List.append_nil, hall]
  | cons e rest ihrest =>
    rw [List.foldlM_cons, run_bind] at h
    obtain ⟨next, hnext, h⟩ := h
    obtain ⟨hlead, more, rfl, hmore⟩ := ih.tryBranch hp (by simp [hall]) hways hnext
    have hdone' : ∀ a ∈ done ++ [e], ∃ t, m.transition p.snapshot a.2 = .ok t := fun a ha =>
      (List.mem_append.mp ha).elim (hdone a) fun ha => List.mem_singleton.mp ha ▸ hlead
    obtain ⟨later, rfl, hopen, hlater⟩ := ihrest (done ++ [e]) (by simpa using hall) hdone'
      (by simpa using hmore) h
    exact ⟨more ++ later, by simp, hopen, by rwa [← List.append_assoc]⟩

/-- A depth-first search adds the ways that go on from a plan, however many events are left. -/
theorem enumerates (m : Machine C E A) (o : SearchOptions C) (first : Snapshot C) (fuel : Nat) :
    Enumerates m o first fuel := by
  induction fuel with
  | zero => exact fun _ h => absurd h run_outOfFuel
  | succ fuel ih =>
    intro places p onPath plans found hp h
    rw [simpleFrom_succ] at h
    exact ih.tryBranches hp [] rfl (by simp) .none h

end Candidates

/-! ## The plans of a search -/

/-- Simple plans are the ways without repetition. When a search for simple plans succeeds,

* its plans are those along which no fingerprint comes twice, that of the start included, and each
  row of events is that of one plan only;
* a plan comes after its parts, and of plans that part the one that goes on with the earlier
  candidate comes first;
* no candidate was left out because it failed: at the end of every plan each leads somewhere. -/
theorem simple_spec {fuel : Nat} {plans : List (Plan C)}
    (h : (simple m o fuel).run = some (.ok plans)) :
    ∃ (first : Snapshot C) (ways : List (List Nat × Plan C)), m.initial = .ok first ∧
      plans = ways.map Prod.snd ∧
      (∀ places p, (places, p) ∈ ways ↔ Traced m o places p ∧ (along o first p).Nodup) ∧
      (plans.map Plan.events).Nodup ∧
      ways.Pairwise (fun a b => Precedes a.1 b.1) ∧
      ∀ p ∈ plans, ∀ e ∈ o.candidates p.snapshot, ∃ t, m.transition p.snapshot e.2 = .ok t := by
  rw [simple, run_bind] at h
  obtain ⟨start, hstart, h⟩ := h
  have hp := traced_of_start hstart
  obtain ⟨first, hfirst, rfl⟩ := hp.of_nil
  have hway : OnWay m o first [] ⟨first, o.snapshotFingerprint first, []⟩
      [o.snapshotFingerprint first] := ⟨hp, by simp [along], by simp [along]⟩
  obtain ⟨more, rfl, hopen, hmore⟩ := enumerates m o first fuel hway h
  have hmem := hmore.mem_cons hp hway.distinct
  have hsorted := hmore.sorted_cons (p := ⟨first, o.snapshotFingerprint first, []⟩)
  -- Plans of one row of events stand at one place, and no two plans do.
  have hevents : ((([], _) :: more).map fun d => d.2.events).Nodup :=
    List.pairwise_map.mpr (hsorted.imp_of_mem fun ha hb hab hevents =>
      hab.ne (((hmem _ _).mp ha).1.places_unique ((hmem _ _).mp hb).1 hevents))
  refine ⟨first, ([], _) :: more, hfirst, rfl, hmem, by simpa [Function.comp_def] using hevents,
    hsorted, ?_⟩
  intro p hp
  rcases List.mem_cons.mp hp with rfl | hp
  · exact hopen
  · obtain ⟨d, hd, rfl⟩ := List.mem_map.mp hp
    exact hmore.opened d hd

/-- A roundabout with three places, one of which leads out of it. -/
def roundabout : Definition := {
  key := "roundabout"
  initial := some "north"
  states := [
    { key := "north"
      on := [⟨"ON", [{ target := ["east"] }]⟩, ⟨"BACK", [{ target := ["south"] }]⟩] },
    { key := "east"
      on := [⟨"ON", [{ target := ["south"] }]⟩, ⟨"BACK", [{ target := ["north"] }]⟩,
        ⟨"OUT", [{ target := ["street"] }]⟩] },
    { key := "south"
      on := [⟨"ON", [{ target := ["north"] }]⟩, ⟨"BACK", [{ target := ["east"] }]⟩] },
    { key := "street", kind := some .final }] }

def roundaboutMachine : Machine Unit Unit Unit := Machine.buildD {} () 10 roundabout

def roundaboutOptions : SearchOptions Unit :=
  { events := [{ type := "ON" }, { type := "BACK" }, { type := "OUT" }]
    snapshotFingerprint := Snapshot.fingerprint fun _ => .null }

/-- Both ways around lead to the east and to the south, and those through the east lead out. -/
theorem simple_spec_roundabout : ∃ plans,
    (simple roundaboutMachine roundaboutOptions 5).run = some (.ok plans) ∧
    plans.map (fun p => p.events.map Event.type) =
      [[], ["ON"], ["ON", "ON"], ["ON", "OUT"], ["BACK"], ["BACK", "BACK"],
        ["BACK", "BACK", "OUT"]] ∧
    ∃ (first : Snapshot Unit) (ways : List (List Nat × Plan Unit)),
      roundaboutMachine.initial = .ok first ∧ plans = ways.map Prod.snd ∧
      (∀ places p, (places, p) ∈ ways ↔ Traced roundaboutMachine roundaboutOptions places p ∧
        (along roundaboutOptions first p).Nodup) ∧
      (plans.map Plan.events).Nodup ∧
      ways.Pairwise (fun a b => Precedes a.1 b.1) ∧
      ∀ p ∈ plans, ∀ e ∈ roundaboutOptions.candidates p.snapshot,
        ∃ t, roundaboutMachine.transition p.snapshot e.2 = .ok t := by
  have hrun : ((simple roundaboutMachine roundaboutOptions 5).run.bind Except.toOption).any
      (fun plans => plans.map (fun p => p.events.map Event.type) =
        [[], ["ON"], ["ON", "ON"], ["ON", "OUT"], ["BACK"], ["BACK", "BACK"],
          ["BACK", "BACK", "OUT"]]) = true := by decide +kernel
  obtain ⟨plans, hplans, htypes⟩ := exists_of_any hrun
  exact ⟨plans, hplans, of_decide_eq_true htypes, simple_spec hplans⟩

end Statechart.Search
