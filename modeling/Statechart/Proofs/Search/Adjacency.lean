import Statechart.Proofs.Search.Recorded
import Statechart.Search.Adjacency

/-!
# The graph of snapshots is that of the shortest plans

The search for the graph and the search for shortest plans are two searches with different notes:
one keeps fingerprints and the snapshots that are still to be worked through, the other whole
plans and a position. At every point the notes of the first are what remains of those of the
second (`graphAt`), so both find the same snapshots in the same order, refuse the same find under
a limit, and fail with the same macrostep.

* `followEvent_graphAt`, `followAll_graphAt`: one candidate, all candidates of a snapshot.
* `adjacency_eq`: the graph is made from the shortest plans.
* `adjacency_spec`: what that says of both searches.
-/
namespace Statechart.Search

open Table

variable {C E A : Type} [BEq C] {m : Machine C E A} {o : SearchOptions C} {p : Plan C}
  {plans : List (Plan C)} {position fuel : Nat}

/-! ## Both searches step by step -/

/-- Where a candidate leads, if it leads anywhere. -/
def edge? (m : Machine C E A) (o : SearchOptions C) (s : Snapshot C) (e : String × Event) :
    Option (String × String) :=
  (m.transition s e.2).toOption.map fun t => (e.1, o.snapshotFingerprint t)

/-- Where the candidates of a snapshot lead. -/
def edgesOf (m : Machine C E A) (o : SearchOptions C) (s : Snapshot C) : Dict String :=
  .ofList ((o.candidates s).filterMap (edge? m o s))

def entryOf (m : Machine C E A) (o : SearchOptions C) (p : Plan C) : String × Dict String :=
  (o.snapshotFingerprint p.snapshot, edgesOf m o p.snapshot)

omit [BEq C] in
/-- What the search for the graph has noted when the other one is at a position of its plans. -/
def graphAt (position : Nat) (edges : Dict (Dict String)) (plans : List (Plan C)) : Graph C where
  visited := (plans.map Plan.fingerprint).reverse
  frontier := (plans.drop position).map Plan.snapshot
  edges

omit [BEq C] in
theorem contains_visited (edges : Dict (Dict String)) (f : String) :
    (graphAt position edges plans).visited.contains f = Plan.reaches plans f := by
  rw [Bool.eq_iff_iff]
  simp [graphAt, Plan.reaches]

/-- Following an event notes what trying it finds. -/
theorem followEvent_graphAt (h : position ≤ plans.length) (edges : Dict (Dict String))
    (out : Dict String) (e : String × Event) :
    followEvent m o p.snapshot (graphAt position edges plans, out) e =
      (fun plans => (graphAt position edges plans,
        (edge? m o p.snapshot e).toList.foldl (fun d e => d.insert e.1 e.2) out)) <$>
        tryEvent m o p plans e.2 := by
  rw [followEvent, tryEvent, edge?]
  cases ht : m.transition p.snapshot e.2 with
  | error failure => rfl
  | ok t =>
    have hgraph : graphAt position edges (plans ++ [p.extend e.2 t (o.snapshotFingerprint t)]) =
        { visited := o.snapshotFingerprint t :: (graphAt position edges plans).visited
          frontier := (graphAt position edges plans).frontier ++ [t]
          edges } := by
      rw [graphAt, List.drop_append_of_le_length h]
      simp [graphAt, Plan.extend]
    have hlength : (graphAt position edges plans).visited.length = plans.length := by
      simp [graphAt]
    change (if _ then _ else _) = _ <$> (if _ then _ else _)
    rw [contains_visited, hlength]
    split
    · rfl
    · rw [map_bind]
      congr 1
      funext _
      rw [map_pure, hgraph]
      rfl

/-- So does following one event after another. -/
theorem followAll_graphAt (edges : Dict (Dict String)) {events : List (String × Event)}
    {plans : List (Plan C)} (h : position ≤ plans.length) (out : Dict String) :
    events.foldlM (followEvent m o p.snapshot) (graphAt position edges plans, out) =
      (fun plans => (graphAt position edges plans,
        (events.filterMap (edge? m o p.snapshot)).foldl (fun d e => d.insert e.1 e.2) out)) <$>
        events.foldlM (fun plans e => tryEvent m o p plans e.2) plans := by
  induction events generalizing plans out with
  | nil => simp
  | cons e events ih =>
    have hout : ((e :: events).filterMap (edge? m o p.snapshot)) =
        (edge? m o p.snapshot e).toList ++ events.filterMap (edge? m o p.snapshot) := by
      rw [List.filterMap_cons]
      cases edge? m o p.snapshot e <;> rfl
    rw [List.foldlM_cons, List.foldlM_cons, followEvent_graphAt h, bind_map_left, map_bind, hout,
      List.foldl_append]
    exact bind_congr_run fun next hnext => ih (h.trans (prefix_of_tryEvent hnext).length_le) _

theorem adjacencyFrom_graphAt {edges : Dict (Dict String)} {plans : List (Plan C)}
    (h : position ≤ plans.length) :
    adjacencyFrom m o fuel (graphAt position edges plans) =
      (fun found => ((found.drop position).map (entryOf m o)).foldl (fun d e => d.insert e.1 e.2)
        edges) <$> shortestFrom m o fuel position plans := by
  induction fuel generalizing position edges plans with
  | zero => rfl
  | succ fuel ih =>
    rw [adjacencyFrom, shortestFrom]
    rcases h.lt_or_eq with hlt | rfl
    · have hdrop := List.drop_eq_getElem_cons hlt
      have hfrontier : (graphAt position edges plans).frontier =
          plans[position].snapshot :: (graphAt (position + 1) edges plans).frontier := by
        rw [graphAt, hdrop]
        rfl
      rw [hfrontier, List.getElem?_eq_getElem hlt]
      change ((o.candidates plans[position].snapshot).foldlM
        (followEvent m o plans[position].snapshot) (graphAt (position + 1) edges plans, [])) >>= _ = _
      rw [followAll_graphAt edges hlt, bind_map_left, map_bind]
      refine bind_congr_run fun next hnext => ?_
      have hnext := prefix_of_tryAll hnext
      refine (ih (hlt.trans_le hnext.length_le)).trans ?_
      rw [map_eq_pure_bind, map_eq_pure_bind]
      refine bind_congr_run fun found hfound => congrArg pure ?_
      -- The plan that was worked on stands where it stood.
      have hfound := hnext.trans (prefix_of_shortestFrom hfound)
      rw [List.drop_eq_getElem_cons (hlt.trans_le hfound.length_le), hfound.getElem hlt]
      rfl
    · have hfrontier : (graphAt plans.length edges plans).frontier = [] := by simp [graphAt]
      rw [hfrontier, List.getElem?_eq_none le_rfl]
      dsimp only
      rw [map_pure, List.drop_length]
      rfl

/-- The graph is made from the shortest plans, whether the search for them succeeds, fails or
does not come to an end. -/
theorem adjacency_eq (m : Machine C E A) (o : SearchOptions C) (fuel : Nat) :
    adjacency m o fuel = (fun plans => .ofList (plans.map (entryOf m o))) <$> shortest m o fuel := by
  rw [adjacency, shortest, map_bind]
  congr 1
  funext first
  have hfirst : 0 ≤ [first].length := Nat.zero_le 1
  exact adjacencyFrom_graphAt hfirst

/-! ## What the graph says -/

/-- The graph of a list of plans. -/
structure Depicts (m : Machine C E A) (o : SearchOptions C) (plans : List (Plan C))
    (g : Dict (Dict String)) : Prop where
  /-- Its nodes are the fingerprints of the plans. -/
  nodes : ∀ f, f ∈ g.keys ↔ f ∈ plans.map Plan.fingerprint
  /-- A fingerprint is that of one plan. -/
  distinct : (plans.map Plan.fingerprint).Nodup
  /-- The edges of a node are the candidates at the end of its plan, and lead where these do. -/
  edges : ∀ p ∈ plans, ∃ out, g.get? p.fingerprint = some out ∧
    (∀ f, f ∈ out.keys ↔ f ∈ (o.candidates p.snapshot).map Prod.fst) ∧
    ∀ e ∈ o.candidates p.snapshot, e.1 = o.eventFingerprint e.2 ∧
      ∃ t, m.transition p.snapshot e.2 = .ok t ∧ out.get? e.1 = some (o.snapshotFingerprint t)
  /-- No edge leads out of the graph. -/
  closed : ∀ f out, g.get? f = some out → ∀ e target, out.get? e = some target → target ∈ g.keys

theorem map_fst_edges {s : Snapshot C} {events : List (String × Event)}
    (h : ∀ e ∈ events, ∃ t, m.transition s e.2 = .ok t) :
    (events.filterMap (edge? m o s)).map Prod.fst = events.map Prod.fst := by
  induction events with
  | nil => rfl
  | cons e events ih =>
    obtain ⟨t, ht⟩ := h e List.mem_cons_self
    have hedge : edge? m o s e = some (e.1, o.snapshotFingerprint t) := by
      rw [edge?, ht]
      rfl
    rw [List.filterMap_cons_some hedge, List.map_cons, List.map_cons,
      ih fun e he => h e (List.mem_cons_of_mem _ he)]

/-- Where all candidates of a snapshot lead somewhere, there is an edge for each. -/
theorem mem_keys_edgesOf {s : Snapshot C}
    (h : ∀ e ∈ o.candidates s, ∃ t, m.transition s e.2 = .ok t) {f : String} :
    f ∈ (edgesOf m o s).keys ↔ f ∈ (o.candidates s).map Prod.fst := by
  rw [edgesOf, Dict.mem_keys_ofList, map_fst_edges h]

theorem get?_edgesOf {s t : Snapshot C} {e : String × Event}
    (h : ∀ e ∈ o.candidates s, ∃ t, m.transition s e.2 = .ok t) (he : e ∈ o.candidates s)
    (ht : m.transition s e.2 = .ok t) :
    (edgesOf m o s).get? e.1 = some (o.snapshotFingerprint t) := by
  refine Dict.get?_ofList ?_ (List.mem_filterMap.mpr ⟨e, he, ?_⟩)
  · rw [map_fst_edges h]
    exact candidates_nodup o s
  · rw [edge?, ht]
    rfl

/-- Plans that are all worked through have a graph, and it is made from them. -/
theorem Progress.depicts {all : List (List Nat × Plan C)} (h : Progress m o position 0 all)
    (hend : all.length ≤ position) :
    Depicts m o (all.map Prod.snd) (.ofList ((all.map Prod.snd).map (entryOf m o))) := by
  have htried : ∀ d ∈ all, ∀ e ∈ o.candidates d.2.snapshot,
      ∃ t, m.transition d.2.snapshot e.2 = .ok t ∧
        o.snapshotFingerprint t ∈ (all.map Prod.snd).map Plan.fingerprint := by
    intro d hd e he
    obtain ⟨k, hk⟩ := List.getElem?_of_mem hd
    obtain ⟨j, hj⟩ := List.getElem?_of_mem he
    have hkj : Tried position 0 k j := .inl ((List.getElem?_eq_some_iff.mp hk).1.trans_le hend)
    obtain ⟨t, ht, d', hd', hfp, -⟩ := h.tried k j d e hkj hk hj
    exact ⟨t, ht, hfp ▸ List.mem_map_of_mem (List.mem_map_of_mem hd')⟩
  have hleads : ∀ d ∈ all, ∀ e ∈ o.candidates d.2.snapshot,
      ∃ t, m.transition d.2.snapshot e.2 = .ok t :=
    fun d hd e he => (htried d hd e he).imp fun _ => And.left
  have hfst : ((all.map Prod.snd).map (entryOf m o)).map Prod.fst =
      (all.map Prod.snd).map Plan.fingerprint := by
    rw [List.map_map, List.map_map, List.map_map]
    exact List.map_congr_left fun d hd => (h.traced d hd).fingerprint.symm
  have hdistinct : ((all.map Prod.snd).map Plan.fingerprint).Nodup := by
    rw [List.map_map]
    exact h.distinct
  have hnodes : ∀ f, f ∈ (Dict.ofList ((all.map Prod.snd).map (entryOf m o))).keys ↔
      f ∈ (all.map Prod.snd).map Plan.fingerprint := fun f => by
    rw [Dict.mem_keys_ofList, hfst]
  have hget : ∀ d ∈ all, (Dict.ofList ((all.map Prod.snd).map (entryOf m o))).get?
      d.2.fingerprint = some (edgesOf m o d.2.snapshot) := fun d hd => by
    refine Dict.get?_ofList (hfst ▸ hdistinct) (List.mem_map.mpr ⟨d.2, ?_, ?_⟩)
    · exact List.mem_map_of_mem hd
    · rw [entryOf, (h.traced d hd).fingerprint]
  refine ⟨hnodes, hdistinct, fun p hp => ?_, fun f out hout name target htarget => ?_⟩
  · obtain ⟨d, hd, rfl⟩ := List.mem_map.mp hp
    refine ⟨_, hget d hd, fun f => mem_keys_edgesOf (hleads d hd), fun e he => ?_⟩
    obtain ⟨t, ht⟩ := hleads d hd e he
    exact ⟨candidates_fingerprint he, t, ht, get?_edgesOf (hleads d hd) he ht⟩
  · obtain ⟨p, hp, rfl⟩ := List.mem_map.mp ((hnodes f).mp (Dict.mem_keys_of_get? hout))
    obtain ⟨d, hd, rfl⟩ := List.mem_map.mp hp
    obtain rfl := Option.some.inj ((hget d hd).symm.trans hout)
    have hname := (mem_keys_edgesOf (hleads d hd)).mp (Dict.mem_keys_of_get? htarget)
    obtain ⟨e, he, rfl⟩ := List.mem_map.mp hname
    obtain ⟨t, ht, hfound⟩ := htried d hd e he
    obtain rfl := Option.some.inj ((get?_edgesOf (hleads d hd) he ht).symm.trans htarget)
    exact (hnodes _).mpr hfound

/-- A search whose result is made from that of another ends as the other does. -/
theorem run_map {α β : Type} {f : α → β} {x : Search α} {r : Except SearchError β} :
    (f <$> x).run = some r ↔ ∃ a, x.run = some a ∧ a.map f = r := by
  rw [ExceptT.run_map]
  rcases x.run with _ | _ | _ <;> simp [Except.map]

/-- The two searches explore one graph. For every machine, all options, with or without a
limit, and any number of steps,

* the search for the graph fails with an error exactly if the search for shortest plans does;
* it succeeds exactly if the other does;
* and if they succeed, the nodes of the graph are the fingerprints of the plans, the edges of a
  node are the candidates of the snapshot at the end of its plan, each of which leads to the
  fingerprint of the snapshot that the machine comes to, and no edge leads out of the graph. -/
theorem adjacency_spec (m : Machine C E A) (o : SearchOptions C) (fuel : Nat) :
    (∀ e, (adjacency m o fuel).run = some (.error e) ↔ (shortest m o fuel).run = some (.error e)) ∧
      ((∃ g, (adjacency m o fuel).run = some (.ok g)) ↔
        ∃ plans, (shortest m o fuel).run = some (.ok plans)) ∧
      ∀ g plans, (adjacency m o fuel).run = some (.ok g) →
        (shortest m o fuel).run = some (.ok plans) → Depicts m o plans g := by
  rw [adjacency_eq]
  refine ⟨fun e => ?_, ?_, fun g plans hg hplans => ?_⟩
  · rw [run_map]
    constructor
    · rintro ⟨_ | _, h, heq⟩
      · cases heq
        exact h
      · cases heq
    · exact fun h => ⟨_, h, rfl⟩
  · constructor
    · rintro ⟨g, hg⟩
      obtain ⟨_ | plans, h, heq⟩ := run_map.mp hg
      · cases heq
      · exact ⟨plans, h⟩
    · exact fun ⟨plans, h⟩ => ⟨_, run_map.mpr ⟨_, h, rfl⟩⟩
  · obtain ⟨_, h, heq⟩ := run_map.mp hg
    obtain rfl := Option.some.inj (h.symm.trans hplans)
    obtain rfl := Except.ok.inj heq
    obtain ⟨all, position, hprogress, hend, rfl⟩ := progress_of_shortest hplans
    exact hprogress.depicts hend

/-- A dial that is turned on and on, and can be set back. -/
def dial : Definition := {
  key := "dial"
  initial := some "shown"
  states := [
    { key := "shown"
      on := [⟨"TURN", [{ actions := [.named "turn"] }]⟩,
        ⟨"RESET", [{ actions := [.named "reset"] }]⟩] }] }

def hands : Registry Nat Unit Unit where
  actions := [("reset", .assign fun _ _ => .ok 0), ("turn", .assign fun n _ => .ok (n + 1))]

def dialMachine : Machine Nat Unit Unit := Machine.buildD hands 0 10 dial

/-- Of where the hand stands the search sees only whether that is even. -/
def dialOptions : SearchOptions Nat :=
  { events := [{ type := "TURN" }, { type := "RESET" }]
    snapshotFingerprint := fun s => if s.context % 2 = 0 then "even" else "odd"
    limit := some 2 }

/-- Turned twice, the dial shows a third number, which both searches take for the first. -/
theorem adjacency_spec_dial : ∃ g plans,
    (adjacency dialMachine dialOptions 3).run = some (.ok g) ∧
    (shortest dialMachine dialOptions 3).run = some (.ok plans) ∧
    g = [("even", [("RESET", "even"), ("TURN", "odd")]),
      ("odd", [("RESET", "even"), ("TURN", "even")])] ∧
    plans.map (fun p => p.snapshot.context) = [0, 1] ∧
    Depicts dialMachine dialOptions plans g := by
  have hgraph : ((adjacency dialMachine dialOptions 3).run.bind Except.toOption).any (fun g =>
      g = [("even", [("RESET", "even"), ("TURN", "odd")]),
        ("odd", [("RESET", "even"), ("TURN", "even")])]) = true := by decide +kernel
  have hplans : ((shortest dialMachine dialOptions 3).run.bind Except.toOption).any (fun plans =>
      plans.map (fun p => p.snapshot.context) = [0, 1]) = true := by decide +kernel
  obtain ⟨g, hg, hedges⟩ := exists_of_any hgraph
  obtain ⟨plans, hp, hcontexts⟩ := exists_of_any hplans
  exact ⟨g, plans, hg, hp, of_decide_eq_true hedges, of_decide_eq_true hcontexts,
    (adjacency_spec dialMachine dialOptions 3).2.2 g plans hg hp⟩

end Statechart.Search
