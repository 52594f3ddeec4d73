import Statechart.Proofs.Macrostep.Replay
import Statechart.Proofs.Search.Shortest
import Statechart.Search.Simple

/-!
# Plans are what the live machine does

A search works with replayed macrosteps. The live machine goes the same way on the events of a
plan as long as no effect fails (`live_agrees`), since each of its macrosteps comes to what the
replayed one does.

* `Traced.path`: the steps of a plan, from the front.
* `traced_of_shortest`, `traced_of_simple`: the plans that searches find.
-/
namespace Statechart

variable {C E A : Type} [BEq C]

namespace Machine

/-- The snapshots that the live machine goes through on a row of events, from one snapshot on. -/
def liveFrom (m : Machine C E A) (s : Snapshot C) : List Event → Except Failure (List (Snapshot C))
  | [] => return [s]
  | event :: rest => do
    let step ← (m.step s event .live).result
    return s :: (← liveFrom m step.snapshot rest)

/-- The snapshots that the live machine goes through on a row of events, from its start on. -/
def live (m : Machine C E A) (events : List Event) : Except Failure (List (Snapshot C)) := do
  let step ← (m.startStep .live).result
  m.liveFrom step.snapshot events

/-- The snapshots that the machine goes through when it is replayed, from one snapshot on. -/
def replayFrom (m : Machine C E A) (s : Snapshot C) :
    List Event → Except Failure (List (Snapshot C))
  | [] => return [s]
  | event :: rest => do return s :: (← replayFrom m (← m.transition s event) rest)

/-- The snapshots that the machine goes through when it is replayed, from its start on. -/
def replay (m : Machine C E A) (events : List Event) : Except Failure (List (Snapshot C)) := do
  m.replayFrom (← m.initial) events

end Machine

namespace Search

variable {m : Machine C E A} {o : SearchOptions C} {places : List Nat} {p : Plan C}
  {s t : Snapshot C}

/-- Steps that lead from one snapshot to another, each with the snapshot after it. -/
inductive Path (m : Machine C E A) : Snapshot C → List (PlanStep C) → Snapshot C → Prop
  | nil (s : Snapshot C) : Path m s [] s
  | cons {s t : Snapshot C} {step : PlanStep C} {steps : List (PlanStep C)}
      (h : m.transition s step.event = .ok step.snapshot) (hp : Path m step.snapshot steps t) :
      Path m s (step :: steps) t

theorem Path.snoc {steps : List (PlanStep C)} (hp : Path m s steps t) {step : PlanStep C}
    (h : m.transition t step.event = .ok step.snapshot) :
    Path m s (steps ++ [step]) step.snapshot := by
  induction hp with
  | nil s => exact .cons h (.nil _)
  | cons hs _ ih => exact .cons hs (ih h)

/-- A plan leads from the initial snapshot to its end. -/
theorem Traced.path (h : Traced m o places p) :
    ∃ first, m.initial = .ok first ∧ Path m first p.steps p.snapshot := by
  induction h with
  | start hs => exact ⟨_, hs, .nil _⟩
  | extend _ _ ht ih =>
    obtain ⟨first, hfirst, hp⟩ := ih
    exact ⟨first, hfirst, hp.snoc ht⟩

/-! ## The live machine on a plan -/

omit [BEq C] in
theorem snapshot_of_replay {live replay : Except Failure (Macrostep C)}
    (h : live = replay ∨ m.EffectFails live) (ht : replay.map Macrostep.snapshot = .ok t) :
    (∃ step, live = .ok step ∧ step.snapshot = t) ∨ m.EffectFails live := by
  refine h.imp_left fun he => ?_
  obtain ⟨step, hs, rfl⟩ := map_ok.mp ht
  exact ⟨step, he.trans hs, rfl⟩

omit [BEq C] in
theorem EffectFails.bind {α β : Type} {x : Except Failure α} (h : m.EffectFails x)
    (f : α → Except Failure β) : m.EffectFails (x >>= f) := by
  obtain ⟨failure, rfl, he⟩ := h
  exact ⟨failure, rfl, he⟩

theorem Path.liveFrom {steps : List (PlanStep C)} (hp : Path m s steps t) :
    m.liveFrom s (steps.map PlanStep.event) = .ok (s :: steps.map PlanStep.snapshot) ∨
      m.EffectFails (m.liveFrom s (steps.map PlanStep.event)) := by
  induction hp with
  | nil s => exact .inl rfl
  | @cons s t step steps h _ ih =>
    rw [List.map_cons, Machine.liveFrom]
    rcases snapshot_of_replay (m.step_replay s step.event) h with ⟨macrostep, hs, hsnap⟩ | he
    · rw [hs, List.map_cons]
      rcases ih with ih | ⟨failure, ih, he⟩
      · exact .inl (by simp [bind, Except.bind, hsnap, ih, pure, Except.pure])
      · exact .inr ⟨failure, by simp [bind, Except.bind, hsnap, ih], he⟩
    · exact .inr (EffectFails.bind he _)

/-- The live machine goes through the snapshots of a plan, unless an effect fails. -/
theorem Traced.live (h : Traced m o places p) : ∃ first, m.initial = .ok first ∧
    (m.live p.events = .ok (first :: p.steps.map PlanStep.snapshot) ∨
      m.EffectFails (m.live p.events)) := by
  obtain ⟨first, hfirst, hp⟩ := h.path
  refine ⟨first, hfirst, ?_⟩
  unfold Machine.live
  rcases snapshot_of_replay m.startStep_replay hfirst with ⟨step, hs, rfl⟩ | he
  · rw [hs]; exact hp.liveFrom
  · exact .inr (EffectFails.bind he _)

/-! ## Plans that are found -/

theorem traced_of_start {first : Plan C} (h : (start m o).run = some (.ok first)) :
    Traced m o [] first := by
  rw [start, run_bind] at h
  obtain ⟨s, hs, h⟩ := h
  obtain rfl := run_pure.mp h
  exact .start (run_ofResult.mp hs)

theorem traced_of_shortest {fuel : Nat} {plans : List (Plan C)}
    (h : (shortest m o fuel).run = some (.ok plans)) : ∀ p ∈ plans, ∃ places, Traced m o places p := by
  obtain ⟨found, position, hp, -, rfl⟩ := progress_of_shortest h
  intro p hmem
  obtain ⟨d, hd, rfl⟩ := List.mem_map.mp hmem
  exact ⟨d.1, hp.traced d hd⟩

/-- A depth-first search goes on from plans with their candidates only. -/
theorem traced_of_simpleFrom {fuel : Nat} {current : Plan C} {onPath : List String}
    {plans found : List (Plan C)} (hc : Traced m o places current)
    (hplans : ∀ p ∈ plans, ∃ places, Traced m o places p)
    (h : (simpleFrom m o fuel current onPath plans).run = some (.ok found)) :
    ∀ p ∈ found, ∃ places, Traced m o places p := by
  induction fuel generalizing places current onPath plans found with
  | zero => exact absurd h run_outOfFuel
  | succ fuel ih =>
    rw [simpleFrom] at h
    refine run_foldlM (P := fun plans => ∀ p ∈ plans, ∃ places, Traced m o places p)
      (fun e he plans more hplans hmore => ?_) hplans h
    rw [run_bind] at hmore
    obtain ⟨next, hnext, hmore⟩ := hmore
    dsimp only at hmore
    split at hmore
    · exact run_pure.mp hmore ▸ hplans
    · rw [run_bind] at hmore
      obtain ⟨-, -, hmore⟩ := hmore
      obtain ⟨i, hi⟩ := List.getElem?_of_mem he
      have hplan := hc.extend hi (run_ofResult.mp hnext)
      refine ih hplan (fun p hp => ?_) hmore
      rcases List.mem_append.mp hp with hp | hp
      · exact hplans p hp
      · rw [List.mem_singleton.mp hp]; exact ⟨_, hplan⟩

theorem traced_of_simple {fuel : Nat} {plans : List (Plan C)}
    (h : (simple m o fuel).run = some (.ok plans)) : ∀ p ∈ plans, ∃ places, Traced m o places p := by
  rw [simple, run_bind] at h
  obtain ⟨first, hfirst, h⟩ := h
  have hf := traced_of_start hfirst
  exact traced_of_simpleFrom hf (fun p hp => ⟨[], List.mem_singleton.mp hp ▸ hf⟩) h

/-- What is replayed is what the live machine does, unless an effect fails. A start and every
step come to the same macrostep or to the same failure in both modes, except that the live one may
end with the failure of an effect; and on the events of a plan that a search finds, the live
machine goes through the snapshots of the plan, with the same exception. -/
theorem live_agrees (m : Machine C E A) :
    ((m.startStep .live).result = (m.startStep .replay).result ∨
      m.EffectFails (m.startStep .live).result) ∧
    (∀ s event, (m.step s event .live).result = (m.step s event .replay).result ∨
      m.EffectFails (m.step s event .live).result) ∧
    ∀ (o : SearchOptions C) fuel plans,
      (shortest m o fuel).run = some (.ok plans) ∨ (simple m o fuel).run = some (.ok plans) →
      ∀ p ∈ plans, ∃ first, m.initial = .ok first ∧
        (m.live p.events = .ok (first :: p.steps.map PlanStep.snapshot) ∨
          m.EffectFails (m.live p.events)) := by
  refine ⟨m.startStep_replay, m.step_replay, fun o fuel plans h p hp => ?_⟩
  obtain ⟨places, htraced⟩ := h.elim (traced_of_shortest · p hp) (traced_of_simple · p hp)
  exact htraced.live

/-- A door with a bell that rings when it is opened, but not more than twice. -/
def door : Definition := {
  key := "door"
  initial := some "shut"
  states := [
    { key := "shut"
      on := [⟨"OPEN", [{ target := ["ajar"], actions := [.named "count", .named "ring"] }]⟩] },
    { key := "ajar", on := [⟨"SHUT", [{ target := ["shut"] }]⟩] }] }

/-- The bell breaks at the third ring. -/
def bells : Registry Nat Unit Unit where
  actions := [("count", .assign fun n _ => .ok (min 3 (n + 1))),
    ("ring", .effect fun n _ => if n < 3 then .ok () else .error "broken")]

def doorMachine : Machine Nat Unit Unit := Machine.buildD bells 0 10 door

def doorOptions : SearchOptions Nat :=
  { events := [{ type := "OPEN" }, { type := "SHUT" }]
    snapshotFingerprint := Snapshot.fingerprint .ofNat }

/-- The types of the events of a plan, and whether the live machine gets to its end. -/
def rehearse (p : Plan Nat) : List String × Bool :=
  (p.events.map Event.type, (doorMachine.live p.events).isOk)

/-- Of the plans for the door those that ring the bell once or twice are what the live machine does,
and for the others the bell breaks. -/
theorem live_agrees_door : ∃ plans, (shortest doorMachine doorOptions 9).run = some (.ok plans) ∧
    plans.map rehearse =
      [([], true), (["OPEN"], true), (["OPEN", "SHUT"], true), (["OPEN", "SHUT", "OPEN"], true),
        (["OPEN", "SHUT", "OPEN", "SHUT"], true),
        (["OPEN", "SHUT", "OPEN", "SHUT", "OPEN"], false),
        (["OPEN", "SHUT", "OPEN", "SHUT", "OPEN", "SHUT"], false)] ∧
    ∀ p ∈ plans, ∃ first, doorMachine.initial = .ok first ∧
      (doorMachine.live p.events = .ok (first :: p.steps.map PlanStep.snapshot) ∨
        doorMachine.EffectFails (doorMachine.live p.events)) := by
  have hrun : ((shortest doorMachine doorOptions 9).run.bind Except.toOption).any (fun plans =>
      plans.map rehearse =
        [([], true), (["OPEN"], true), (["OPEN", "SHUT"], true), (["OPEN", "SHUT", "OPEN"], true),
          (["OPEN", "SHUT", "OPEN", "SHUT"], true),
          (["OPEN", "SHUT", "OPEN", "SHUT", "OPEN"], false),
          (["OPEN", "SHUT", "OPEN", "SHUT", "OPEN", "SHUT"], false)]) = true := by decide +kernel
  obtain ⟨plans, hplans, hlist⟩ := (Option.any_eq_true _ _).mp hrun
  obtain ⟨found, hrun, hplans⟩ := Option.bind_eq_some_iff.mp hplans
  cases found with
  | error e => cases hplans
  | ok found =>
    obtain rfl := Option.some.inj hplans
    exact ⟨found, hrun, of_decide_eq_true hlist,
      (live_agrees doorMachine).2.2 doorOptions 9 found (.inl hrun)⟩

end Search

end Statechart
