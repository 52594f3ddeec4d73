import Statechart.Proofs.Macrostep.Passes

/-!
# The ceiling on microsteps

A macrostep that succeeds has made its first microstep and at most as many further ones as
fit under the ceiling. The ceiling has no other influence: a macrostep that does not end for
reaching it ends in the same way under every higher one, with the same snapshot, commands and
effects, or with the same failure.

* `Rounds.microsteps_le`, `Rounds.withCeiling`: both for the loop.
* `loop_spec`: termination, bound and ceiling for starts and steps.
-/
namespace Statechart

/-- Whether a macrostep ended because the ceiling was reached. -/
def Failure.isLimit : Failure → Bool
  | .microstepLimit .. => true
  | _ => false

/-- Whether a macrostep ended because the ceiling was reached. -/
def Outcome.isLimit {C E : Type} (o : Outcome C E) : Bool :=
  match o.result with
  | .error failure => failure.isLimit
  | .ok _ => false

namespace Machine

variable {C E A : Type} {m : Machine C E A} {mode : Mode} {trigger current : Event}

def withCeiling (m : Machine C E A) (ceiling : Nat) : Machine C E A :=
  { m with maxMicrosteps := ceiling }

theorem choose_withCeiling {ceiling : Nat} {configuration : NodeSet} {context : C} :
    ∀ (internal : List Event) (current : Event),
      (m.withCeiling ceiling).choose configuration context current internal =
        m.choose configuration context current internal
  | [], _ => rfl
  | raised :: rest, _ => by
    unfold choose
    rw [choose_withCeiling rest raised]
    rfl

theorem next?_withCeiling {ceiling : Nat} (current : Event) (x : Execution C E) :
    (m.withCeiling ceiling).next? current x = m.next? current x := by
  unfold next?
  rw [choose_withCeiling]
  rfl

variable [BEq C]

/-- The loop makes at most as many microsteps as its budget is. -/
theorem Rounds.microsteps_le {budget : Nat} {seen : List (Moment C)} {x y : Execution C E}
    {result : Attempt E (Execution C E)}
    (h : m.Rounds mode trigger budget seen current x result) (hy : result = .ok y) :
    y.microsteps ≤ x.microsteps + budget := by
  induction h with
  | failed => cases hy
  | ended => cases hy; omega
  | cycle => cases hy
  | limit => cases hy
  | halted => cases hy
  | took _ _ ht _ ih =>
    have := ih hy
    have := take_microsteps ht
    omega

theorem settle_microsteps_le {x y : Execution C E} (hx : x.microsteps = 1)
    (h : m.settle mode trigger x = .ok y) : y.microsteps ≤ max 1 m.maxMicrosteps := by
  have := (m.rounds_stabilize mode trigger _ [] trigger x).microsteps_le h
  omega

/-- With a higher ceiling and more budget the loop ends in the same way, unless it reached the
ceiling. -/
theorem Rounds.withCeiling {ceiling budget more : Nat} {seen : List (Moment C)}
    {x : Execution C E} {result : Attempt E (Execution C E)}
    (h : m.Rounds mode trigger budget seen current x result) (hle : budget ≤ more)
    (hlimit : ∀ halt, result = .error halt → halt.failure.isLimit = false) :
    (m.withCeiling ceiling).stabilize mode trigger more seen current x = result := by
  induction h generalizing more with
  | failed hn => rw [stabilize_eq, next?_withCeiling, hn]; rfl
  | ended hn => rw [stabilize_eq, next?_withCeiling, hn]; rfl
  | cycle hn hs =>
    rw [stabilize_eq, next?_withCeiling, hn]
    simp only [bind, Except.bind, hs, if_true]
    rfl
  | limit =>
    -- Without budget the loop has reached the ceiling.
    have := hlimit _ rfl
    cases this
  | @halted _ _ _ x choice halt hn hs ht =>
    obtain ⟨more, rfl⟩ : ∃ k, more = k + 1 := ⟨more - 1, by omega⟩
    have ht : (m.withCeiling ceiling).take mode x choice = .error halt := ht
    rw [stabilize_eq, next?_withCeiling, hn]
    simp only [bind, Except.bind, hs, Bool.false_eq_true, if_false, ht]
  | @took _ _ _ x choice y _ hn hs ht _ ih =>
    obtain ⟨more, rfl⟩ : ∃ k, more = k + 1 := ⟨more - 1, by omega⟩
    have ht : (m.withCeiling ceiling).take mode x choice = .ok y := ht
    rw [stabilize_eq, next?_withCeiling, hn]
    simp only [bind, Except.bind, hs, Bool.false_eq_true, if_false, ht]
    exact ih (by omega) hlimit

theorem settle_withCeiling {ceiling : Nat} (hle : m.maxMicrosteps ≤ ceiling) {x : Execution C E}
    (h : ∀ halt, m.settle mode trigger x = .error halt → halt.failure.isLimit = false) :
    (m.withCeiling ceiling).settle mode trigger x = m.settle mode trigger x :=
  (m.rounds_stabilize mode trigger _ [] trigger x).withCeiling (Nat.sub_le_sub_right hle _) h

theorem run_withCeiling {ceiling : Nat} (hle : m.maxMicrosteps ≤ ceiling)
    {finish : Execution C E → Macrostep C} {first : Attempt E (Execution C E)}
    (h : (outcome finish (first >>= m.settle mode trigger)).isLimit = false) :
    first >>= (m.withCeiling ceiling).settle mode trigger =
      first >>= m.settle mode trigger := by
  cases first with
  | error halt => rfl
  | ok x =>
    refine settle_withCeiling hle fun halt hs => ?_
    have heq : (Except.ok x >>= m.settle mode trigger) = .error halt := hs
    rw [heq] at h
    exact h

theorem startStep_withCeiling {ceiling : Nat} (hle : m.maxMicrosteps ≤ ceiling)
    (h : (m.startStep mode).isLimit = false) :
    (m.withCeiling ceiling).startStep mode = m.startStep mode := by
  unfold startStep at h ⊢
  exact congrArg _ (run_withCeiling hle h)

theorem step_withCeiling {ceiling : Nat} (hle : m.maxMicrosteps ≤ ceiling) {s : Snapshot C}
    {event : Event} (h : (m.step s event mode).isLimit = false) :
    (m.withCeiling ceiling).step s event mode = m.step s event mode := by
  unfold Machine.step at h ⊢
  split
  · rfl
  · rename_i hd
    rw [if_neg hd] at h
    have hsel : (m.withCeiling ceiling).registry.select (m.withCeiling ceiling).chart
        s.configuration s.context event .event =
      m.registry.select m.chart s.configuration s.context event .event := rfl
    rw [hsel]
    cases hs : m.registry.select m.chart s.configuration s.context event .event with
    | error failure => rfl
    | ok transitions =>
      cases transitions with
      | nil => rfl
      | cons t rest =>
        rw [hs] at h
        exact congrArg (outcome fun x => m.finish event (m.isDone x.configuration)
          (hasChanged s x) x) (run_withCeiling hle h)

theorem startStep_microsteps_le {step : Macrostep C} (h : (m.startStep mode).result = .ok step) :
    step.microsteps ≤ max 1 m.maxMicrosteps := by
  obtain ⟨x, y, hx, hy, rfl⟩ := startStep_ok h
  obtain ⟨entries, -, hm⟩ := Execution.enterInitial_spec hx
  exact settle_microsteps_le hm.microsteps hy

theorem step_microsteps_le {s : Snapshot C} {event : Event} {step : Macrostep C}
    (h : (m.step s event mode).result = .ok step) : step.microsteps ≤ max 1 m.maxMicrosteps := by
  rcases step_ok h with rfl | ⟨transitions, x, y, -, hx, hy, rfl⟩
  · exact Nat.zero_le _
  · obtain ⟨entries, -, hm⟩ := Execution.microstep_spec hx
    exact settle_microsteps_le hm.microsteps hy

/-- The loop of every macrostep ends, within the ceiling, which has no other influence.
From any execution the passes come to an end, and it is the one that starts and steps go on
from; a macrostep that succeeds has made at most `max 1 m.maxMicrosteps` microsteps; and one
that did not reach the ceiling comes to the same under every higher one. -/
theorem loop_spec (m : Machine C E A) (mode : Mode) :
    (∀ trigger, WellFounded fun next l : Loop C E => m.pass mode trigger l = .again next) ∧
    (∀ trigger x, ∃ result, m.Ends mode trigger ⟨[], trigger, x⟩ result ∧
      result.map settled = (m.settle mode trigger x).map settled) ∧
    (∀ step, (m.startStep mode).result = .ok step → step.microsteps ≤ max 1 m.maxMicrosteps) ∧
    (∀ s event step, (m.step s event mode).result = .ok step →
      step.microsteps ≤ max 1 m.maxMicrosteps) ∧
    ∀ ceiling, m.maxMicrosteps ≤ ceiling →
      ((m.startStep mode).isLimit = false →
        (m.withCeiling ceiling).startStep mode = m.startStep mode) ∧
      ∀ s event, (m.step s event mode).isLimit = false →
        (m.withCeiling ceiling).step s event mode = m.step s event mode :=
  ⟨pass_wellFounded m mode, fun trigger x => ends_rounds m mode trigger ⟨[], trigger, x⟩,
    fun _ => startStep_microsteps_le, fun _ _ _ => step_microsteps_le,
    fun _ hle => ⟨startStep_withCeiling hle, fun _ _ => step_withCeiling hle⟩⟩

end Machine

end Statechart
