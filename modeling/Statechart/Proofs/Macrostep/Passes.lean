import Mathlib.Order.WellFounded
import Statechart.Proofs.Macrostep.Run

/-!
# The passes of the loop

`Machine.stabilize` drops all raised events that select nothing in one go. Here the loop is
cut finer: a pass either takes transitions, which is a microstep, or drops one raised event,
which is none. A microstep may raise any number of events, and a drop brings the count of
microsteps no nearer to the ceiling, so neither of the two numbers decreases with every pass;
together, in this order, they do.

* `pass_wellFounded`: there is no endless row of passes.
* `ends_rounds`: the row of passes ends as `Machine.stabilize` does, except that it has taken
  the dropped events off the queue.
-/
namespace Statechart

/-- The loop of a macrostep between two passes. -/
structure Loop (C E : Type) where
  seen : List (Moment C)
  /-- The event handled last. -/
  current : Event
  execution : Execution C E

/-- What one pass comes to. -/
inductive Pass (C E : Type) where
  | ended (result : Attempt E (Execution C E))
  | again (loop : Loop C E)

namespace Machine

variable {C E A : Type} [BEq C] {m : Machine C E A} {mode : Mode} {trigger : Event}

/-- Takes a choice, unless it was made before or the ceiling is reached. -/
def passTake (m : Machine C E A) (mode : Mode) (trigger : Event) (l : Loop C E) (choice : Choice) :
    Pass C E :=
  let x := l.execution
  let moment := momentOf x choice
  if l.seen.any moment.same then .ended (x.fail (m.cycleFailure trigger moment))
  else if m.maxMicrosteps ≤ x.microsteps then
    .ended (x.fail (.microstepLimit trigger.type m.maxMicrosteps))
  else match m.take mode x choice with
    | .error halt => .ended (.error halt)
    | .ok y => .again ⟨moment :: l.seen, choice.event, y⟩

/-- One pass: transitions without event, or else the oldest raised event. -/
def pass (m : Machine C E A) (mode : Mode) (trigger : Event) (l : Loop C E) : Pass C E :=
  let x := l.execution
  if m.isDone x.configuration then .ended (.ok x)
  else match m.registry.select m.chart x.configuration x.context l.current .eventless with
    | .error failure => .ended (x.fail failure)
    | .ok eventless =>
      if !eventless.isEmpty then m.passTake mode trigger l ⟨eventless, l.current, x.internal⟩
      else match x.internal with
        | [] => .ended (.ok x)
        | raised :: rest =>
          match m.registry.select m.chart x.configuration x.context raised .event with
          | .error failure => .ended (x.fail failure)
          | .ok selected =>
            if !selected.isEmpty then m.passTake mode trigger l ⟨selected, raised, rest⟩
            else .again { l with current := raised, execution := { x with internal := rest } }

/-- Passes from `l` on end with a result. -/
inductive Ends (m : Machine C E A) (mode : Mode) (trigger : Event) :
    Loop C E → Attempt E (Execution C E) → Prop
  | ended {l result} (h : m.pass mode trigger l = .ended result) : Ends m mode trigger l result
  | again {l next result} (h : m.pass mode trigger l = .again next)
      (he : Ends m mode trigger next result) : Ends m mode trigger l result

/-- What a pass comes to, next to what the round would take: it fails where the choice fails,
ends where nothing is left, takes the choice, or drops a raised event that the choice is not
about. -/
theorem pass_cases (m : Machine C E A) (mode : Mode) (trigger : Event) (l : Loop C E) :
    (∃ halt, m.next? l.current l.execution = .error halt ∧
      m.pass mode trigger l = .ended (.error halt)) ∨
    (m.next? l.current l.execution = .ok none ∧ m.pass mode trigger l = .ended (.ok l.execution)) ∨
    (∃ choice, m.next? l.current l.execution = .ok (some choice) ∧
      m.pass mode trigger l = m.passTake mode trigger l choice) ∨
    ∃ raised rest, l.execution.internal = raised :: rest ∧
      m.pass mode trigger l = .again { l with
        current := raised, execution := { l.execution with internal := rest } } ∧
      m.next? l.current l.execution = m.next? raised { l.execution with internal := rest } := by
  cases hd : m.isDone l.execution.configuration with
  | true => exact .inr (.inl ⟨by simp [next?, hd], by simp [pass, hd]⟩)
  | false =>
    -- Either way transitions without event are looked at first.
    cases hs : m.registry.select m.chart l.execution.configuration l.execution.context l.current
        .eventless with
    | error failure =>
      refine .inl ⟨⟨failure, l.execution.effects⟩, ?_, by simp [pass, hd, hs, Execution.fail]⟩
      cases hi : l.execution.internal <;>
        simp [next?, hd, hi, choose, hs, bind, Except.bind, Execution.attempt, Except.mapError]
    | ok eventless =>
      cases he : eventless.isEmpty with
      | false =>
        refine .inr (.inr (.inl ⟨⟨eventless, l.current, l.execution.internal⟩, ?_,
          by simp [pass, hd, hs, he]⟩))
        cases hi : l.execution.internal <;>
          simp [next?, hd, hi, choose, hs, he, bind, Except.bind, Execution.attempt,
            Except.mapError, pure, Except.pure]
      | true =>
        cases hi : l.execution.internal with
        | nil =>
          refine .inr (.inl ⟨?_, by simp [pass, hd, hs, he, hi]⟩)
          simp [next?, hd, hi, choose, hs, he, bind, Except.bind, Execution.attempt,
            Except.mapError, pure, Except.pure]
        | cons raised rest =>
          cases hr : m.registry.select m.chart l.execution.configuration l.execution.context raised
              .event with
          | error failure =>
            refine .inl ⟨⟨failure, l.execution.effects⟩, ?_,
              by simp [pass, hd, hs, he, hi, hr, Execution.fail]⟩
            simp [next?, hd, hi, choose, hs, he, hr, bind, Except.bind, Execution.attempt,
              Except.mapError]
          | ok selected =>
            cases hsel : selected.isEmpty with
            | false =>
              refine .inr (.inr (.inl ⟨⟨selected, raised, rest⟩, ?_,
                by simp [pass, hd, hs, he, hi, hr, hsel]⟩))
              simp [next?, hd, hi, choose, hs, he, hr, hsel, bind, Except.bind, Execution.attempt,
                Except.mapError, pure, Except.pure]
            | true =>
              refine .inr (.inr (.inr ⟨raised, rest, rfl,
                by simp [pass, hd, hs, he, hi, hr, hsel], ?_⟩))
              simp [next?, hd, hi, choose, hs, he, hr, hsel, bind, Except.bind, Execution.attempt]

/-! ## Passes come to an end -/

omit [BEq C] in
theorem take_microsteps {x y : Execution C E} {choice : Choice}
    (h : m.take mode x choice = .ok y) : y.microsteps = x.microsteps + 1 := by
  obtain ⟨entries, -, hm⟩ := Execution.microstep_spec h
  exact hm.microsteps

/-- The microsteps that are left, then the raised events that wait. -/
def Loop.measure (m : Machine C E A) (l : Loop C E) : Nat × Nat :=
  (m.maxMicrosteps - l.execution.microsteps, l.execution.internal.length)

theorem passTake_lt {l next : Loop C E} {choice : Choice}
    (h : m.passTake mode trigger l choice = .again next) :
    m.maxMicrosteps - next.execution.microsteps < m.maxMicrosteps - l.execution.microsteps := by
  unfold passTake at h
  dsimp only at h
  split at h
  · cases h
  · split at h
    · cases h
    · split at h
      · cases h
      · rename_i y hy
        cases h
        have := take_microsteps hy
        dsimp only
        omega

/-- A pass that does not end brings the loop nearer to its end. -/
theorem measure_lt {l next : Loop C E} (h : m.pass mode trigger l = .again next) :
    Prod.Lex (· < ·) (· < ·) (Loop.measure m next) (Loop.measure m l) := by
  rcases pass_cases m mode trigger l with ⟨_, -, hp⟩ | ⟨-, hp⟩ | ⟨choice, -, hp⟩ |
      ⟨raised, rest, hi, hp, -⟩
  · rw [hp] at h; cases h
  · rw [hp] at h; cases h
  · rw [hp] at h
    exact .left _ _ (passTake_lt h)
  · rw [hp] at h
    cases h
    unfold Loop.measure
    rw [hi]
    exact .right _ (Nat.lt_succ_self _)

/-- There is no endless row of passes. -/
theorem pass_wellFounded (m : Machine C E A) (mode : Mode) (trigger : Event) :
    WellFounded fun next l : Loop C E => m.pass mode trigger l = .again next :=
  Subrelation.wf measure_lt
    (InvImage.wf (Loop.measure m) (WellFounded.prod_lex Nat.lt_wfRel.wf Nat.lt_wfRel.wf))

/-! ## Passes and rounds -/

/-- An execution without what still waits in its queue. -/
def settled (x : Execution C E) : Execution C E := { x with internal := [] }

/-- How the loop goes on between two passes. -/
def rounds (m : Machine C E A) (mode : Mode) (trigger : Event) (l : Loop C E) :
    Attempt E (Execution C E) :=
  m.stabilize mode trigger (m.maxMicrosteps - l.execution.microsteps) l.seen l.current l.execution

theorem rounds_of_error {l : Loop C E} {halt : Halt E}
    (h : m.next? l.current l.execution = .error halt) : m.rounds mode trigger l = .error halt := by
  rw [rounds, stabilize_eq, h]; rfl

theorem rounds_of_none {l : Loop C E} (h : m.next? l.current l.execution = .ok none) :
    m.rounds mode trigger l = .ok l.execution := by
  rw [rounds, stabilize_eq, h]; rfl

theorem rounds_of_some {l : Loop C E} {choice : Choice}
    (h : m.next? l.current l.execution = .ok (some choice)) :
    m.rounds mode trigger l = match m.passTake mode trigger l choice with
      | .ended result => result
      | .again next => m.rounds mode trigger next := by
  rw [rounds, stabilize_eq, h]
  unfold passTake
  simp only [bind, Except.bind]
  split
  · rfl
  · split
    · rename_i hz
      rw [if_pos (Nat.sub_eq_zero_iff_le.mp hz)]
    · rename_i budget hb
      rw [if_neg (by omega)]
      cases ht : m.take mode l.execution choice with
      | error halt => rfl
      | ok y =>
        have hy : m.maxMicrosteps - y.microsteps = budget := by
          rw [take_microsteps ht]; omega
        simp only [rounds, hy]

/-- Raised events before the choice make no difference but that they wait. -/
theorem rounds_of_drop {l : Loop C E} {raised : Event} {rest : List Event}
    (h : m.next? l.current l.execution = m.next? raised { l.execution with internal := rest }) :
    (m.rounds mode trigger l).map settled = (m.rounds mode trigger { l with
      current := raised, execution := { l.execution with internal := rest } }).map settled := by
  rw [rounds, rounds, stabilize_eq, stabilize_eq, h]
  cases m.next? raised { l.execution with internal := rest } with
  | error halt => rfl
  | ok next =>
    cases next with
    | none => rfl
    | some choice => rfl

/-- Passes end as the loop does, which is never short of budget. -/
theorem ends_rounds (m : Machine C E A) (mode : Mode) (trigger : Event) (l : Loop C E) :
    ∃ result, m.Ends mode trigger l result ∧
      result.map settled = (m.rounds mode trigger l).map settled := by
  induction l using (pass_wellFounded m mode trigger).induction with
  | _ l ih =>
    rcases pass_cases m mode trigger l with ⟨halt, hn, hp⟩ | ⟨hn, hp⟩ | ⟨choice, hn, hp⟩ |
        ⟨raised, rest, -, hp, hn⟩
    · exact ⟨_, .ended hp, by rw [rounds_of_error hn]⟩
    · exact ⟨_, .ended hp, by rw [rounds_of_none hn]⟩
    · have hr : m.rounds mode trigger l = _ := rounds_of_some hn
      cases hpt : m.passTake mode trigger l choice with
      | ended result => exact ⟨result, .ended (hp.trans hpt), by rw [hr, hpt]⟩
      | again next =>
        obtain ⟨result, he, heq⟩ := ih next (hp.trans hpt)
        exact ⟨result, .again (hp.trans hpt) he, by rw [heq, hr, hpt]⟩
    · obtain ⟨result, he, heq⟩ := ih _ hp
      exact ⟨result, .again hp he, heq.trans (rounds_of_drop hn).symm⟩

end Machine

end Statechart
