import Statechart.Proofs.Search.Simple

/-!
# What a limit does to a search

A search with a limit adds no plan when it has as many as the limit, so it holds at most that many,
or one, as the plan without events is there from the start. With every plan that it works on it
comes closer to that bound, so it ends (`Ends`), in more steps as it does in fewer (`Extends`). Up
to the bound it does what a search without a limit does (`Cuts`).

* `shortest_more`, `simple_more`: more steps change nothing for a search that ends.
* `shortestFrom_ends`, `simpleFrom_ends`: a search with a limit ends.
* `shortestFrom_cuts`, `simpleFrom_cuts`: what it comes to where the search without succeeds.
* `limit_spec`: all of it, for both searches.
-/
namespace Statechart.Search

variable {C E A : Type} {m : Machine C E A} {o : SearchOptions C} {p : Plan C}
  {plans : List (Plan C)} {limit fuel position : Nat} {onPath : List String}

/-! ## More steps -/

section

variable {α β : Type} {x y : Search α} {f g : α → Search β}

/-- Whatever one search ends with, another one ends with too. -/
def Extends (x y : Search α) : Prop := ∀ r, x.run = some r → y.run = some r

theorem Extends.refl (x : Search α) : Extends x x := fun _ => id

theorem Extends.trans {z : Search α} (h : Extends x y) (h' : Extends y z) : Extends x z :=
  fun r hr => h' r (h r hr)

theorem Extends.bind (h : Extends x y) (hf : ∀ a, Extends (f a) (g a)) :
    Extends (x >>= f) (y >>= g) := by
  intro r hr
  rw [ExceptT.run_bind] at hr ⊢
  cases hx : x.run with
  | none =>
    rw [hx] at hr
    cases hr
  | some result =>
    rw [hx] at hr
    rw [h result hx]
    cases result with
    | error e => exact hr
    | ok a => exact hf a r hr

theorem Extends.foldlM {f g : β → α → Search β} (h : ∀ b a, Extends (f b a) (g b a)) (l : List α)
    (b : β) : Extends (l.foldlM f b) (l.foldlM g b) := by
  induction l generalizing b with
  | nil => exact .refl _
  | cons a l ih =>
    rw [List.foldlM_cons, List.foldlM_cons]
    exact (h b a).bind ih

theorem Extends.of_le {f : Nat → Search α} (h : ∀ n, Extends (f n) (f (n + 1)))
    {few many : Nat} (hle : few ≤ many) : Extends (f few) (f many) := by
  induction hle with
  | refl => exact .refl _
  | step _ ih => exact ih.trans (h _)

end

section

variable [BEq C]

theorem shortestFrom_more : Extends (shortestFrom m o fuel position plans)
    (shortestFrom m o (fuel + 1) position plans) := by
  induction fuel generalizing position plans with
  | zero => exact fun r hr => nomatch hr
  | succ fuel ih =>
    rw [shortestFrom, shortestFrom]
    cases plans[position]? with
    | none => exact .refl _
    | some current => exact (Extends.refl _).bind fun _ => ih

theorem simpleFrom_more :
    Extends (simpleFrom m o fuel p onPath plans) (simpleFrom m o (fuel + 1) p onPath plans) := by
  induction fuel generalizing p onPath plans with
  | zero => exact fun r hr => nomatch hr
  | succ fuel ih =>
    rw [simpleFrom_succ, simpleFrom_succ]
    refine .foldlM (fun plans e => ?_) _ _
    refine (Extends.refl _).bind fun t => ?_
    dsimp only
    split
    · exact .refl _
    · exact (Extends.refl _).bind fun _ => ih

/-- A search that ends, ends the same way in more steps. -/
theorem shortest_more {many : Nat} (h : fuel ≤ many) :
    Extends (shortest m o fuel) (shortest m o many) :=
  Extends.of_le (f := shortest m o)
    (fun _ => (Extends.refl _).bind fun _ => shortestFrom_more) h

theorem simple_more {many : Nat} (h : fuel ≤ many) : Extends (simple m o fuel) (simple m o many) :=
  Extends.of_le (f := simple m o) (fun _ => (Extends.refl _).bind fun _ => simpleFrom_more) h

end

/-! ## A search with a limit ends -/

section

variable {α β : Type} {P : α → Prop} {Q : β → Prop} {x : Search α}

/-- The search ends, and what it succeeds with has a property. -/
def Ends (P : α → Prop) (x : Search α) : Prop := ∃ r, x.run = some r ∧ ∀ a, r = .ok a → P a

theorem Ends.pure {a : α} (h : P a) : Ends P (pure a) := by
  refine ⟨.ok a, rfl, fun b hb => ?_⟩
  cases hb
  exact h

theorem Ends.ofResult (r : Except Failure α) : Ends (fun _ => True) (ofResult r) :=
  ⟨_, rfl, fun _ _ => trivial⟩

theorem Ends.bind {f : α → Search β} (h : Ends P x) (hf : ∀ a, P a → Ends Q (f a)) :
    Ends Q (x >>= f) := by
  obtain ⟨r, hr, hP⟩ := h
  unfold Ends
  rw [ExceptT.run_bind, hr]
  cases r with
  | error e => exact ⟨.error e, rfl, fun b hb => nomatch hb⟩
  | ok a => exact hf a (hP a rfl)

theorem Ends.foldlM {f : α → β → Search α} (h : ∀ a b, P a → Ends P (f a b)) {l : List β} {a : α}
    (ha : P a) : Ends P (l.foldlM f a) := by
  induction l generalizing a with
  | nil => exact .pure ha
  | cons b l ih =>
    rw [List.foldlM_cons]
    exact (h a b ha).bind fun _ => ih

theorem Ends.checkLimit {found : Nat} (h : o.limit = some limit) :
    Ends (fun _ => found < limit) (o.checkLimit found) := by
  rw [SearchOptions.checkLimit, h]
  dsimp only
  split
  · exact ⟨_, rfl, fun _ hok => nomatch hok⟩
  · exact .pure (by omega)

end

/-- There are at least so many plans, and no more than a search with the limit may hold. -/
def Held (least limit : Nat) (plans : List (Plan C)) : Prop :=
  least ≤ plans.length ∧ plans.length ≤ max 1 limit

variable [BEq C] {least : Nat}

theorem tryEvent_ends (hlimit : o.limit = some limit) {event : Event} (h : Held least limit plans) :
    Ends (Held least limit) (tryEvent m o p plans event) := by
  refine (Ends.ofResult _).bind fun t _ => ?_
  dsimp only
  split
  · exact .pure h
  · refine (Ends.checkLimit hlimit).bind fun _ hroom => .pure ?_
    unfold Held at *
    rw [List.length_append, List.length_singleton]
    omega

/-- Enough steps are those of the plans that can still be worked on. -/
theorem shortestFrom_ends (hlimit : o.limit = some limit) (h : Held least limit plans)
    (hposition : position ≤ max 1 limit) (hfuel : max 1 limit < fuel + position) :
    Ends (Held least limit) (shortestFrom m o fuel position plans) := by
  induction fuel generalizing position plans with
  | zero => omega
  | succ fuel ih =>
    rw [shortestFrom]
    cases hcurrent : plans[position]? with
    | none => exact .pure h
    | some current =>
      have hlt := (List.getElem?_eq_some_iff.mp hcurrent).1
      refine (Ends.foldlM (fun _ _ hplans => tryEvent_ends hlimit hplans) h).bind
        fun next hnext => ?_
      exact ih hnext (by have := h.2; omega) (by omega)

/-- Every plan on the way to the one that is worked on has been added, so their number bounds the
steps. -/
theorem simpleFrom_ends (hlimit : o.limit = some limit) (h : Held least limit plans)
    (hfuel : max 1 limit < fuel + least) :
    Ends (Held least limit) (simpleFrom m o fuel p onPath plans) := by
  induction fuel generalizing least p onPath plans with
  | zero =>
    unfold Held at h
    omega
  | succ fuel ih =>
    rw [simpleFrom_succ]
    refine Ends.foldlM (fun plans e hplans => ?_) h
    refine (Ends.ofResult _).bind fun t _ => ?_
    dsimp only
    split
    · exact .pure hplans
    · refine (Ends.checkLimit hlimit).bind fun _ hroom => ?_
      have hadded :
          Held (least + 1) limit (plans ++ [p.extend e.2 t (o.snapshotFingerprint t)]) := by
        unfold Held at *
        rw [List.length_append, List.length_singleton]
        omega
      obtain ⟨r, hr, hheld⟩ := ih hadded (by omega)
      exact ⟨r, hr, fun found hfound => ⟨by have := (hheld found hfound).1; omega,
        (hheld found hfound).2⟩⟩

/-! ## Where the search without a limit succeeds -/

/-- What a search with a limit comes to, given the plans that there are. -/
def cut (limit : Nat) (found : List (Plan C)) : Except SearchError (List (Plan C)) :=
  if found.length ≤ max 1 limit then .ok found else .error (.limitExceeded limit)

/-- From given plans one search only adds to them, and if these are no more than can be held,
another one comes to what the limit leaves of that. -/
structure Cuts (limit : Nat) (plans : List (Plan C)) (free capped : Search (List (Plan C))) :
    Prop where
  grows : ∀ found, free.run = some (.ok found) → plans.length ≤ found.length
  agrees : ∀ found, free.run = some (.ok found) → Held 1 limit plans →
    capped.run = some (cut limit found)

namespace Cuts

variable {free capped : Search (List (Plan C))}

omit [BEq C] in
theorem pure (limit : Nat) (plans : List (Plan C)) :
    Cuts limit plans (pure plans) (pure plans) where
  grows found h := by rw [run_pure.mp h]
  agrees found h hheld := by
    rw [cut, ← run_pure.mp h, if_pos hheld.2]
    rfl

omit [BEq C] in
theorem bind {f g : List (Plan C) → Search (List (Plan C))} (h : Cuts limit plans free capped)
    (hf : ∀ next, Cuts limit next (f next) (g next)) :
    Cuts limit plans (free >>= f) (capped >>= g) where
  grows found hfound := by
    obtain ⟨next, hnext, hfound⟩ := run_bind.mp hfound
    exact (h.grows next hnext).trans ((hf next).grows found hfound)
  agrees found hfound hheld := by
    obtain ⟨next, hnext, hfound⟩ := run_bind.mp hfound
    have hgrows := (hf next).grows found hfound
    rw [ExceptT.run_bind, h.agrees next hnext hheld, cut]
    split
    · rename_i hroom
      exact (hf next).agrees found hfound ⟨hheld.1.trans (h.grows next hnext), hroom⟩
    · rw [cut, if_neg (by omega)]
      rfl

omit [BEq C] in
theorem of_not_ok (h : ∀ found, free.run ≠ some (.ok found)) : Cuts limit plans free capped :=
  ⟨fun found hfound => absurd hfound (h found), fun found hfound => absurd hfound (h found)⟩

omit [BEq C] in
theorem ofResult {α : Type} {r : Except Failure α} {f g : α → Search (List (Plan C))}
    (h : ∀ a, Cuts limit plans (f a) (g a)) :
    Cuts limit plans (ofResult r >>= f) (ofResult r >>= g) := by
  cases r with
  | error failure => exact .of_not_ok fun _ hfound => nomatch hfound
  | ok a => exact h a

omit [BEq C] in
theorem foldlM {α : Type} {f g : List (Plan C) → α → Search (List (Plan C))}
    (h : ∀ plans a, Cuts limit plans (f plans a) (g plans a)) (l : List α)
    (plans : List (Plan C)) : Cuts limit plans (l.foldlM f plans) (l.foldlM g plans) := by
  induction l generalizing plans with
  | nil => exact .pure limit plans
  | cons a l ih =>
    rw [List.foldlM_cons, List.foldlM_cons]
    exact (h plans a).bind ih

omit [BEq C] in
theorem add (o : SearchOptions C) (h : Cuts limit (plans ++ [p]) free capped) :
    Cuts limit plans (({ o with limit := none }).checkLimit plans.length >>= fun _ => free)
      (({ o with limit := some limit }).checkLimit plans.length >>= fun _ => capped) := by
  have hlength : (plans ++ [p]).length = plans.length + 1 := by simp
  refine ⟨fun found hfound => ?_, fun found hfound hheld => ?_⟩
  · have := h.grows found hfound
    omega
  · have hgrows := h.grows found hfound
    rw [ExceptT.run_bind, SearchOptions.checkLimit]
    dsimp only
    unfold Held at hheld
    split
    · rw [cut, if_neg (by omega)]
      rfl
    · exact h.agrees found hfound ⟨by omega, by omega⟩

end Cuts

theorem shortestFrom_cuts (m : Machine C E A) (o : SearchOptions C) (limit : Nat) :
    Cuts limit plans (shortestFrom m { o with limit := none } fuel position plans)
      (shortestFrom m { o with limit := some limit } fuel position plans) := by
  induction fuel generalizing position plans with
  | zero => exact .of_not_ok fun _ => run_outOfFuel
  | succ fuel ih =>
    rw [shortestFrom, shortestFrom]
    cases plans[position]? with
    | none => exact .pure limit plans
    | some current =>
      refine (Cuts.foldlM (fun plans e => .ofResult fun t => ?_) _ plans).bind fun _ => ih
      dsimp only
      split
      · exact .pure limit plans
      · exact (Cuts.pure limit _).add o

theorem simpleFrom_cuts (m : Machine C E A) (o : SearchOptions C) (limit : Nat) :
    Cuts limit plans (simpleFrom m { o with limit := none } fuel p onPath plans)
      (simpleFrom m { o with limit := some limit } fuel p onPath plans) := by
  induction fuel generalizing p onPath plans with
  | zero => exact .of_not_ok fun _ => run_outOfFuel
  | succ fuel ih =>
    rw [simpleFrom_succ, simpleFrom_succ]
    refine .foldlM (fun plans e => .ofResult fun t => ?_) _ plans
    dsimp only
    split
    · exact .pure limit plans
    · exact ih.add o

/-! ## Both searches -/

/-- A limit makes a search end, and it is reached exactly if there are more plans. -/
structure Sharp (limit : Nat) (free capped : Nat → Search (List (Plan C))) : Prop where
  /-- With more steps than plans that can be held, the search ends, always the same way. -/
  ends : ∃ r, ∀ fuel, max 1 limit < fuel → (capped fuel).run = some r
  /-- Where the search without a limit succeeds, it comes to the same plans, or has too many. -/
  exact : ∀ steps plans, (free steps).run = some (.ok plans) → ∀ fuel, max 1 limit < fuel →
    (capped fuel).run = some (cut limit plans)

omit [BEq C] in
theorem Sharp.of {free capped : Nat → Search (List (Plan C))}
    (hmore : ∀ {few many}, few ≤ many → Extends (capped few) (capped many))
    (hends : Ends (Held 1 limit) (capped (max 1 limit + 1)))
    (hcuts : ∀ fuel plans, (free fuel).run = some (.ok plans) →
      (capped fuel).run = some (cut limit plans)) : Sharp limit free capped := by
  obtain ⟨r, hr, -⟩ := hends
  have hsame : ∀ fuel, max 1 limit < fuel → (capped fuel).run = some r :=
    fun fuel hfuel => hmore hfuel r hr
  refine ⟨⟨r, hsame⟩, fun steps plans hplans fuel hfuel => ?_⟩
  -- Both ways of ending are seen in the larger number of steps.
  have hcut := hmore (Nat.le_max_left steps fuel) _ (hcuts steps plans hplans)
  rw [hsame fuel hfuel, ← hsame _ (Nat.lt_of_lt_of_le hfuel (Nat.le_max_right steps fuel)), hcut]

omit [BEq C] in
theorem held_start (first : Plan C) (limit : Nat) : Held 1 limit [first] :=
  ⟨Nat.le_refl 1, Nat.le_max_left 1 limit⟩

/-- A limit is sharp, for both searches, every machine and all options: the search ends after
finitely many steps, and where it succeeds without the limit it comes to the same plans under the
limit if there are no more of them, and otherwise fails as the limit is exceeded. The plan without
events is always there, so no plans at all means one. -/
theorem limit_spec (m : Machine C E A) (o : SearchOptions C) (limit : Nat) :
    Sharp limit (shortest m { o with limit := none }) (shortest m { o with limit := some limit }) ∧
      Sharp limit (simple m { o with limit := none }) (simple m { o with limit := some limit }) := by
  have hstart : Ends (fun _ => True) (start m { o with limit := some limit }) :=
    (Ends.ofResult _).bind fun _ _ => .pure trivial
  constructor
  · refine .of shortest_more ?_ fun fuel plans hplans => ?_
    · exact hstart.bind fun first _ =>
        shortestFrom_ends rfl (held_start first limit) (Nat.zero_le _) (by omega)
    · obtain ⟨first, hfirst, hplans⟩ := run_bind.mp hplans
      have hfirst : (start m { o with limit := some limit }).run = some (.ok first) := hfirst
      rw [shortest, ExceptT.run_bind, hfirst]
      exact (shortestFrom_cuts m o limit).agrees plans hplans (held_start first limit)
  · refine .of simple_more ?_ fun fuel plans hplans => ?_
    · exact hstart.bind fun first _ => simpleFrom_ends rfl (held_start first limit) (by omega)
    · obtain ⟨first, hfirst, hplans⟩ := run_bind.mp hplans
      have hfirst : (start m { o with limit := some limit }).run = some (.ok first) := hfirst
      rw [simple, ExceptT.run_bind, hfirst]
      exact (simpleFrom_cuts m o limit).agrees plans hplans (held_start first limit)

/-- The roundabout has four places and seven ways, so a limit of six is kept by one search and
exceeded by the other. -/
theorem limit_spec_roundabout : ∃ few all,
    (shortest roundaboutMachine { roundaboutOptions with limit := none } 5).run =
      some (.ok few) ∧ few.length = 4 ∧
    (simple roundaboutMachine { roundaboutOptions with limit := none } 5).run = some (.ok all) ∧
    all.length = 7 ∧
    ∀ fuel, 6 < fuel →
      (shortest roundaboutMachine { roundaboutOptions with limit := some 6 } fuel).run =
        some (.ok few) ∧
      (simple roundaboutMachine { roundaboutOptions with limit := some 6 } fuel).run =
        some (.error (.limitExceeded 6)) := by
  have hfew : ((shortest roundaboutMachine { roundaboutOptions with limit := none } 5).run.bind
      Except.toOption).any (fun plans => plans.length = 4) = true := by decide +kernel
  have hall : ((simple roundaboutMachine { roundaboutOptions with limit := none } 5).run.bind
      Except.toOption).any (fun plans => plans.length = 7) = true := by decide +kernel
  obtain ⟨few, hshortest, hfew⟩ := exists_of_any hfew
  obtain ⟨all, hsimple, hall⟩ := exists_of_any hall
  have hfew : few.length = 4 := of_decide_eq_true hfew
  have hall : all.length = 7 := of_decide_eq_true hall
  have hspec := limit_spec roundaboutMachine roundaboutOptions 6
  refine ⟨few, all, hshortest, hfew, hsimple, hall, fun fuel hfuel => ⟨?_, ?_⟩⟩
  · rw [hspec.1.exact 5 few hshortest fuel hfuel, cut, if_pos (by omega)]
  · rw [hspec.2.exact 5 all hsimple fuel hfuel, cut, if_neg (by omega)]

/-- A statue stays where it is. -/
def statue : Definition := {
  key := "statue"
  initial := some "still"
  states := [{ key := "still" }] }

def statueMachine : Machine Unit Unit Unit := Machine.buildD {} () 10 statue

def statueOptions : SearchOptions Unit :=
  { events := [{ type := "PUSH" }]
    snapshotFingerprint := Snapshot.fingerprint fun _ => .null }

/-- The plan without events passes every limit: the statue has one place and one way, which is
more than none, and under a limit of none both searches find it. -/
theorem start_passes_limit : ∃ plan : Plan Unit, ∀ fuel, 1 < fuel →
    (shortest statueMachine { statueOptions with limit := none } fuel).run =
      some (.ok [plan]) ∧
    (shortest statueMachine { statueOptions with limit := some 0 } fuel).run =
      some (.ok [plan]) ∧
    (simple statueMachine { statueOptions with limit := none } fuel).run = some (.ok [plan]) ∧
    (simple statueMachine { statueOptions with limit := some 0 } fuel).run =
      some (.ok [plan]) := by
  have hstart : ((start statueMachine statueOptions).run.bind Except.toOption).any (fun plan =>
      (shortest statueMachine { statueOptions with limit := none } 2).run = some (.ok [plan]) ∧
      (shortest statueMachine { statueOptions with limit := some 0 } 2).run = some (.ok [plan]) ∧
      (simple statueMachine { statueOptions with limit := none } 2).run = some (.ok [plan]) ∧
      (simple statueMachine { statueOptions with limit := some 0 } 2).run =
        some (.ok [plan])) = true := by decide +kernel
  obtain ⟨plan, -, hplan⟩ := exists_of_any hstart
  obtain ⟨hshortest, hshortest', hsimple, hsimple'⟩ := of_decide_eq_true hplan
  exact ⟨plan, fun fuel hfuel => ⟨shortest_more hfuel _ hshortest,
    shortest_more hfuel _ hshortest', simple_more hfuel _ hsimple, simple_more hfuel _ hsimple'⟩⟩

end Statechart.Search
