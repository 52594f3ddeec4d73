import Mathlib.Data.List.Forall2
import Statechart.Proofs.Macrostep.Alike
import Statechart.Proofs.Macrostep.Ceiling
import Statechart.Proofs.Macrostep.Failures

/-!
# What a report of a cycle means

A cycle is reported when the same transitions are selected at a moment that was there before.
A moment does not hold the event that is being handled, although guards and actions see it.
So a report means two choices with one moment (`Repeats`), the second reached from the first;
and if guards and actions do not tell the two apart (`Indistinct`: they do not look at the
event, or it is the same one), then the second goes the way of the first, to a third like
them, and so on: without the look at earlier moments the macrostep would reach every ceiling.

* `Rounds.repeats`: a report comes from two choices with one moment.
* `indistinct_of_eq`: choices made for one event cannot be told apart.
* `Repeats.goes`: from choices that cannot be told apart the loop goes on for ever.
* `cycle_report`: both for starts and steps.
* `counter_reports_cycle`: a report for two choices that can be told apart, where the
  macrostep would have come to its end.
-/
namespace Statechart

/-- Whether a cycle was reported. -/
def Failure.isCycle : Failure → Bool
  | .cycle .. => true
  | _ => false

theorem Failure.not_isCycle {f : Failure} (h : f.ofLoop = false) : ¬ f.isCycle = true := by
  cases f <;> simp_all [ofLoop, isCycle]

def Outcome.isCycle {C E : Type} (o : Outcome C E) : Bool :=
  match o.result with
  | .error failure => failure.isCycle
  | .ok _ => false

/-- The loop between two rounds. -/
structure Round (C E : Type) where
  /-- The event handled last. -/
  current : Event
  execution : Execution C E

namespace Machine

variable {C E A : Type} {m : Machine C E A} {mode : Mode} {trigger : Event}

/-! ## Going on -/

/-- One round takes a choice. -/
def Takes (m : Machine C E A) (mode : Mode) (a : Round C E) (choice : Choice) (b : Round C E) :
    Prop :=
  m.next? a.current a.execution = .ok (some choice) ∧
    m.take mode a.execution choice = .ok b.execution ∧ b.current = choice.event

/-- Some rounds lead from one to the other. -/
inductive Leads (m : Machine C E A) (mode : Mode) : Round C E → Round C E → Prop
  | refl (a : Round C E) : Leads m mode a a
  | step {a b d : Round C E} {choice : Choice} (h : m.Takes mode a choice b)
      (hl : Leads m mode b d) : Leads m mode a d

theorem Leads.trans {a b d : Round C E} (h : m.Leads mode a b) (h' : m.Leads mode b d) :
    m.Leads mode a d := by
  induction h with
  | refl => exact h'
  | step ht _ ih => exact .step ht (ih h')

/-- So many rounds can be made, and there is a choice to take after them. -/
def Goes (m : Machine C E A) (mode : Mode) : Nat → Round C E → Prop
  | 0, a => ∃ choice, m.next? a.current a.execution = .ok (some choice)
  | rounds + 1, a => ∃ choice b, m.Takes mode a choice b ∧ Goes m mode rounds b

theorem goes_of_leads {a b : Round C E} (h : m.Leads mode a b) :
    ∀ {rounds : Nat}, (∀ n ≤ rounds, m.Goes mode n b) → m.Goes mode rounds a := by
  induction h with
  | refl => exact fun hb => hb _ (Nat.le_refl _)
  | step ht _ ih =>
    intro rounds hb
    cases rounds with
    | zero => exact ⟨_, ht.1⟩
    | succ n => exact ⟨_, _, ht, ih fun k hk => hb k (by omega)⟩

theorem Goes.alike {R : C → C → Prop} {S : Event → Event → Prop} (hb : m.registry.Blind R S) :
    ∀ {rounds : Nat} {a b : Round C E}, a.execution.Like R S b.execution → S a.current b.current →
      m.Goes mode rounds a → m.Goes mode rounds b := by
  have chosen : ∀ {a b : Round C E} {choice}, a.execution.Like R S b.execution →
      S a.current b.current → m.next? a.current a.execution = .ok (some choice) →
      ∃ choice', m.next? b.current b.execution = .ok (some choice') ∧ choice.Like S S choice' := by
    intro a b choice hx he hn
    have hboth := next?_alike hb (fun h => h) hx he
    rw [hn] at hboth
    generalize hv : m.next? b.current b.execution = v at hboth
    cases hboth with
    | ok h =>
      cases h with
      | some h => exact ⟨_, rfl, h⟩
  intro rounds
  induction rounds with
  | zero =>
    intro a b hx he ⟨choice, hn⟩
    obtain ⟨choice', hn', -⟩ := chosen hx he hn
    exact ⟨choice', hn'⟩
  | succ n ih =>
    intro a b hx he ⟨choice, d, ⟨hn, ht, hd⟩, hg⟩
    obtain ⟨choice', hn', hc⟩ := chosen hx he hn
    have hboth := take_alike hb hb.refl mode hx.configuration hx.history hx.context hc
    rw [ht] at hboth
    generalize hv : m.take mode b.execution choice' = v at hboth
    cases hboth with
    | ok h =>
      exact ⟨choice', ⟨choice'.event, _⟩, ⟨hn', hv, rfl⟩, ih h (hd ▸ hc.event) hg⟩

/-! ## Two choices with one moment -/

/-- From `start` the loop comes to a choice, and from there to another one with the same
moment. -/
structure Repeats [BEq C] (m : Machine C E A) (mode : Mode) (start a b : Round C E)
    (first second : Choice) : Prop where
  reached : m.Leads mode start a
  chosen : m.next? a.current a.execution = .ok (some first)
  between : ∃ d, m.Takes mode a first d ∧ m.Leads mode d b
  again : m.next? b.current b.execution = .ok (some second)
  same : (momentOf b.execution second).same (momentOf a.execution first) = true

theorem repeats_of_seen [BEq C] {start b : Round C E} {seen : List (Moment C)} {second : Choice}
    (hseen : ∀ moment ∈ seen, ∃ a first d, m.Leads mode start a ∧ m.Takes mode a first d ∧
      momentOf a.execution first = moment ∧ m.Leads mode d b)
    (hn : m.next? b.current b.execution = .ok (some second))
    (hs : seen.any (momentOf b.execution second).same = true) :
    ∃ a b first second, m.Repeats mode start a b first second := by
  obtain ⟨moment, hm, hsame⟩ := List.any_eq_true.mp hs
  obtain ⟨a, first, d, h1, h2, rfl, h4⟩ := hseen moment hm
  exact ⟨a, b, first, second, h1, h2.1, ⟨d, h2, h4⟩, hn, hsame⟩

/-- Guards and actions do not tell two choices apart: neither by the contexts, nor by the
events that are handled, nor by those that wait. -/
def Indistinct (r : Registry C E A) (a b : Round C E) (first second : Choice) : Prop :=
  ∃ R S, r.Blind R S ∧ R a.execution.context b.execution.context ∧ S first.event second.event ∧
    List.Forall₂ S first.internal second.internal

/-- Choices that are made in equal contexts, for equal events and with equal events waiting,
are not told apart. -/
theorem indistinct_of_eq (r : Registry C E A) {a b : Round C E} {first second : Choice}
    (hc : a.execution.context = b.execution.context) (he : first.event = second.event)
    (hi : first.internal = second.internal) : Indistinct r a b first second :=
  ⟨Eq, Eq, r.blind_eq, hc, he, hi ▸ List.forall₂_same.mpr fun _ _ => rfl⟩

theorem forall₂_of_beq {α : Type} [BEq α] : ∀ {l l' : List α}, (l == l') = true →
    List.Forall₂ (fun a b => (a == b) = true) l l'
  | [], [], _ => .nil
  | [], _ :: _, h => by cases h
  | _ :: _, [], h => by cases h
  | a :: l, b :: l', h => by
    simp only [List.cons_beq_cons, Bool.and_eq_true] at h
    exact .cons h.1 (forall₂_of_beq h.2)

theorem type_eq_of_beq {e e' : Event} (h : (e == e') = true) : e.type = e'.type := by
  have hs : e.same e' = true := h
  simp only [Event.same, Bool.and_eq_true, beq_iff_eq] at hs
  exact hs.1.1

namespace Repeats

variable [BEq C] {start a b : Round C E} {first second : Choice}

theorem agree (h : m.Repeats mode start a b first second) :
    first.transitions = second.transitions ∧
      a.execution.configuration = b.execution.configuration ∧
      a.execution.history = b.execution.history ∧
      List.Forall₂ (fun e e' => e.type = e'.type) first.internal second.internal := by
  have hs := h.same
  simp only [Moment.same, momentOf, Bool.and_eq_true, beq_iff_eq] at hs
  obtain ⟨⟨⟨⟨h1, h2⟩, -⟩, h3⟩, h4⟩ := hs
  refine ⟨h1.symm, h2.symm, h3.symm, ?_⟩
  exact ((forall₂_of_beq h4).imp fun _ _ he => (type_eq_of_beq he).symm).flip

/-- From choices that cannot be told apart the loop goes on for ever. -/
theorem goes (h : m.Repeats mode start a b first second)
    (hi : Indistinct m.registry a b first second) (rounds : Nat) : m.Goes mode rounds start := by
  obtain ⟨R, S, hblind, hctx, hev, hint⟩ := hi
  obtain ⟨ht, hconf, hhist, htypes⟩ := h.agree
  obtain ⟨d, ⟨hn, htake, hd⟩, hleads⟩ := h.between
  have hqueue : SameQueue S first.internal second.internal :=
    List.Forall₂.mp (fun _ _ hS ht => ⟨hS, ht⟩) hint htypes
  have hboth := take_alike hblind hblind.refl mode hconf hhist hctx ⟨ht, hev, hqueue⟩
  rw [htake] at hboth
  generalize hv : m.take mode b.execution second = v at hboth
  cases hboth with
  | ok hlike =>
    rename_i y
    -- The second choice leads to a round like the one after the first, which leads back here.
    have hb : ∀ n, m.Goes mode n b := by
      intro n
      induction n using Nat.strongRecOn with
      | ind n ih =>
        cases n with
        | zero => exact ⟨second, h.again⟩
        | succ n =>
          refine ⟨second, ⟨second.event, y⟩, ⟨h.again, hv, rfl⟩, ?_⟩
          exact Goes.alike hblind (a := d) hlike (hd ▸ hev)
            (goes_of_leads hleads fun k hk => ih k (by omega))
    exact goes_of_leads (h.reached.trans (.step ⟨hn, htake, hd⟩ hleads)) fun n _ => hb n

end Repeats

/-! ## Without the look at earlier moments -/

/-- The loop that does not look at earlier moments. -/
def stabilizeUnchecked (m : Machine C E A) (mode : Mode) (trigger : Event) :
    Nat → Event → Execution C E → Attempt E (Execution C E)
  | budget, current, x => do
    match ← m.next? current x with
    | none => return x
    | some choice =>
      match budget with
      | 0 => x.fail (.microstepLimit trigger.type m.maxMicrosteps)
      | budget + 1 =>
        stabilizeUnchecked m mode trigger budget choice.event (← m.take mode x choice)

def settleUnchecked (m : Machine C E A) (mode : Mode) (trigger : Event) (x : Execution C E) :
    Attempt E (Execution C E) :=
  m.stabilizeUnchecked mode trigger (m.maxMicrosteps - x.microsteps) trigger x

/-- `startStep` without the look at earlier moments. -/
def startStepUnchecked (m : Machine C E A) (mode : Mode) : Outcome C E :=
  outcome (fun x => m.finish .init (m.isDone x.configuration) true x) (do
    let x ← Execution.enterInitial m.chart m.registry mode .init
      { configuration := ∅, context := m.context, history := [] }
    m.settleUnchecked mode .init x)

/-- `step` without the look at earlier moments. -/
def stepUnchecked [BEq C] (m : Machine C E A) (s : Snapshot C) (event : Event) (mode : Mode) :
    Outcome C E :=
  if s.done then ⟨.ok (unchanged s event), []⟩
  else match m.registry.select m.chart s.configuration s.context event .event with
    | .error failure => ⟨.error failure, []⟩
    | .ok [] => ⟨.ok (unchanged s event), []⟩
    | .ok transitions =>
      outcome (fun x => m.finish event (m.isDone x.configuration) (hasChanged s x) x) (do
        let x ← Execution.microstep m.chart m.registry mode transitions event (execution s)
        m.settleUnchecked mode event x)

/-- A loop that goes on for long enough reaches its ceiling. -/
theorem stabilizeUnchecked_of_goes (trigger : Event) :
    ∀ {budget : Nat} {a : Round C E}, m.Goes mode budget a → ∃ effects,
      m.stabilizeUnchecked mode trigger budget a.current a.execution =
        .error ⟨.microstepLimit trigger.type m.maxMicrosteps, effects⟩ := by
  intro budget
  induction budget with
  | zero =>
    intro a ⟨choice, hn⟩
    refine ⟨a.execution.effects, ?_⟩
    rw [stabilizeUnchecked, hn]
    rfl
  | succ n ih =>
    intro a ⟨choice, b, ⟨hn, ht, hb⟩, hg⟩
    obtain ⟨effects, he⟩ := ih hg
    refine ⟨effects, ?_⟩
    rw [stabilizeUnchecked, hn]
    simp only [bind, Except.bind, ht]
    rw [← hb]
    exact he

theorem goes_withCeiling (ceiling : Nat) :
    ∀ {rounds : Nat} {a : Round C E}, m.Goes mode rounds a →
      (m.withCeiling ceiling).Goes mode rounds a
  | 0, _, ⟨choice, hn⟩ => ⟨choice, (next?_withCeiling _ _).trans hn⟩
  | _ + 1, _, ⟨choice, b, ⟨hn, ht, hb⟩, hg⟩ =>
    ⟨choice, b, ⟨(next?_withCeiling _ _).trans hn, ht, hb⟩, goes_withCeiling ceiling hg⟩

/-! ## Reports -/

/-- A report of a cycle comes from two choices with one moment. -/
theorem Rounds.repeats [BEq C] (start : Round C E) {budget : Nat} {seen : List (Moment C)}
    {current : Event} {x : Execution C E} {result : Attempt E (Execution C E)}
    (h : m.Rounds mode trigger budget seen current x result)
    (hstart : m.Leads mode start ⟨current, x⟩)
    (hseen : ∀ moment ∈ seen, ∃ a first d, m.Leads mode start a ∧ m.Takes mode a first d ∧
      momentOf a.execution first = moment ∧ m.Leads mode d ⟨current, x⟩)
    {halt : Halt E} (hr : result = .error halt) (hc : halt.failure.isCycle = true) :
    ∃ a b first second, m.Repeats mode start a b first second := by
  induction h with
  | failed hn =>
    cases hr
    exact absurd hc (Failure.not_isCycle (next?_fails .ofLoop _ _ halt hn))
  | ended => cases hr
  | cycle hn hs => exact repeats_of_seen hseen hn hs
  | limit => cases hr; cases hc
  | halted _ _ ht =>
    cases hr
    exact absurd hc (Failure.not_isCycle (Execution.microstep_fails .ofLoop _ _ halt ht))
  | @took _ _ current x choice y _ hn _ ht _ ih =>
    have htakes : m.Takes mode ⟨current, x⟩ choice ⟨choice.event, y⟩ := ⟨hn, ht, rfl⟩
    refine ih (hstart.trans (.step htakes (.refl _))) (fun moment hm => ?_) hr
    rcases List.mem_cons.mp hm with rfl | hm
    · exact ⟨_, _, _, hstart, htakes, rfl, .refl _⟩
    · obtain ⟨a, first, d, h1, h2, h3, h4⟩ := hseen moment hm
      exact ⟨a, first, d, h1, h2, h3, h4.trans (.step htakes (.refl _))⟩

theorem settle_cycle [BEq C] {x : Execution C E} {halt : Halt E}
    (h : m.settle mode trigger x = .error halt) (hc : halt.failure.isCycle = true) :
    ∃ a b first second, m.Repeats mode ⟨trigger, x⟩ a b first second :=
  (m.rounds_stabilize mode trigger _ [] trigger x).repeats ⟨trigger, x⟩ (.refl _)
    (fun _ hm => absurd hm List.not_mem_nil) h hc

/-- A macrostep that goes on for ever after its first microstep reaches every ceiling. -/
theorem unchecked_of_goes {x : Execution C E} {finish : Execution C E → Macrostep C}
    (hg : ∀ rounds, m.Goes mode rounds ⟨trigger, x⟩) (ceiling : Nat) :
    (outcome finish ((m.withCeiling ceiling).settleUnchecked mode trigger x)).result =
      .error (.microstepLimit trigger.type ceiling) := by
  obtain ⟨effects, he⟩ := stabilizeUnchecked_of_goes trigger
    (goes_withCeiling ceiling (hg (ceiling - x.microsteps)))
  have hs : (m.withCeiling ceiling).settleUnchecked mode trigger x =
      .error ⟨.microstepLimit trigger.type ceiling, effects⟩ := he
  rw [hs]
  rfl

theorem startStep_cycle [BEq C] (h : (m.startStep mode).isCycle = true) :
    ∃ x, Execution.enterInitial m.chart m.registry mode .init
        { configuration := ∅, context := m.context, history := [] } = .ok x ∧
      ∃ a b first second, m.Repeats mode ⟨.init, x⟩ a b first second := by
  unfold startStep runStart at h
  cases hx : Execution.enterInitial m.chart m.registry mode .init
      { configuration := ∅, context := m.context, history := [] } with
  | error halt =>
    rw [hx] at h
    exact absurd h (Failure.not_isCycle (Execution.enterSet_fails .ofLoop _ _ halt hx))
  | ok x =>
    rw [hx] at h
    refine ⟨x, rfl, ?_⟩
    cases hs : m.settle mode .init x with
    | error halt =>
      simp only [bind, Except.bind, hs] at h
      exact settle_cycle hs h
    | ok y => simp only [bind, Except.bind, hs] at h; cases h

theorem step_cycle [BEq C] {s : Snapshot C} {event : Event}
    (h : (m.step s event mode).isCycle = true) :
    s.done = false ∧ ∃ t rest x,
      m.registry.select m.chart s.configuration s.context event .event = .ok (t :: rest) ∧
      Execution.microstep m.chart m.registry mode (t :: rest) event (execution s) = .ok x ∧
      ∃ a b first second, m.Repeats mode ⟨event, x⟩ a b first second := by
  unfold Machine.step at h
  cases hd : s.done with
  | true => rw [hd] at h; cases h
  | false =>
    refine ⟨rfl, ?_⟩
    rw [hd] at h
    simp only [Bool.false_eq_true, if_false] at h
    cases hsel : m.registry.select m.chart s.configuration s.context event .event with
    | error failure =>
      rw [hsel] at h
      exact absurd h (Failure.not_isCycle (Registry.select_fails .ofLoop _ _ failure hsel))
    | ok transitions =>
      rw [hsel] at h
      cases transitions with
      | nil => cases h
      | cons t rest =>
        refine ⟨t, rest, ?_⟩
        dsimp only at h
        unfold runStep at h
        cases hx : Execution.microstep m.chart m.registry mode (t :: rest) event (execution s) with
        | error halt =>
          rw [hx] at h
          exact absurd h (Failure.not_isCycle (Execution.microstep_fails .ofLoop _ _ halt hx))
        | ok x =>
          rw [hx] at h
          refine ⟨x, rfl, rfl, ?_⟩
          cases hs : m.settle mode event x with
          | error halt =>
            simp only [bind, Except.bind, hs] at h
            exact settle_cycle hs h
          | ok y => simp only [bind, Except.bind, hs] at h; cases h

/-- A report of a cycle is right if guards and actions do not tell the two choices apart.
Every report of a start or a step comes from two choices with one moment, made after its
first microstep; and if the two cannot be told apart, the same macrostep without the look at
earlier moments ends at every ceiling, and only there. -/
theorem cycle_report [BEq C] (m : Machine C E A) (mode : Mode) :
    ((m.startStep mode).isCycle = true →
      ∃ x, Execution.enterInitial m.chart m.registry mode .init
          { configuration := ∅, context := m.context, history := [] } = .ok x ∧
        ∃ a b first second, m.Repeats mode ⟨.init, x⟩ a b first second ∧
          (Indistinct m.registry a b first second → ∀ ceiling,
            ((m.withCeiling ceiling).startStepUnchecked mode).result =
              .error (.microstepLimit Event.init.type ceiling))) ∧
    ∀ s event, (m.step s event mode).isCycle = true →
      ∃ transitions x,
        m.registry.select m.chart s.configuration s.context event .event = .ok transitions ∧
        Execution.microstep m.chart m.registry mode transitions event (execution s) = .ok x ∧
        ∃ a b first second, m.Repeats mode ⟨event, x⟩ a b first second ∧
          (Indistinct m.registry a b first second → ∀ ceiling,
            ((m.withCeiling ceiling).stepUnchecked s event mode).result =
              .error (.microstepLimit event.type ceiling)) := by
  refine ⟨fun h => ?_, fun s event h => ?_⟩
  · obtain ⟨x, hx, a, b, first, second, hr⟩ := startStep_cycle h
    refine ⟨x, hx, a, b, first, second, hr, fun hi ceiling => ?_⟩
    have hx' : Execution.enterInitial (m.withCeiling ceiling).chart
        (m.withCeiling ceiling).registry mode .init
        { configuration := ∅, context := (m.withCeiling ceiling).context, history := [] } =
        .ok x := hx
    unfold startStepUnchecked
    rw [hx']
    exact unchecked_of_goes (hr.goes hi) ceiling
  · obtain ⟨hd, t, rest, x, hsel, hx, a, b, first, second, hr⟩ := step_cycle h
    refine ⟨t :: rest, x, hsel, hx, a, b, first, second, hr, fun hi ceiling => ?_⟩
    have hsel' : (m.withCeiling ceiling).registry.select (m.withCeiling ceiling).chart
        s.configuration s.context event .event = .ok (t :: rest) := hsel
    have hx' : Execution.microstep (m.withCeiling ceiling).chart
        (m.withCeiling ceiling).registry mode (t :: rest) event (execution s) = .ok x := hx
    unfold stepUnchecked
    rw [hd, hsel']
    simp only [Bool.false_eq_true, if_false]
    rw [hx']
    exact unchecked_of_goes (hr.goes hi) ceiling

/-- Two states that pass on to each other. -/
def carousel : Machine Unit Unit Unit := buildD {} () 10 {
  key := "carousel"
  initial := some "up"
  states := [
    { key := "up", always := [{ target := ["down"] }] },
    { key := "down", always := [{ target := ["up"] }] }] }

/-- The carousel is reported, and indeed it would reach every ceiling. -/
theorem carousel_never_stops : (carousel.startStep .replay).isCycle = true ∧
    ∀ ceiling, ((carousel.withCeiling ceiling).startStepUnchecked .replay).result =
      .error (.microstepLimit Event.init.type ceiling) := by
  have hc : (carousel.startStep .replay).isCycle = true := by decide +kernel
  obtain ⟨x, -, a, b, first, second, hr, hall⟩ := (cycle_report carousel .replay).1 hc
  refine ⟨hc, hall ⟨fun _ _ => True, fun _ _ => True, ?_, trivial, trivial, ?_⟩⟩
  · have hnone : ∀ {name}, carousel.registry.guard? name = none ∧
        carousel.registry.action? name = none := by
      have hr : carousel.registry = {} := by rfl
      intro name
      rw [hr]
      exact ⟨rfl, rfl⟩
    refine ⟨fun _ => trivial, fun hg => ?_, fun hg => ?_, fun hg => ?_⟩
    · rw [hnone.1] at hg; cases hg
    · rw [hnone.2] at hg; cases hg
    · rw [hnone.2] at hg; cases hg
  · exact hr.agree.2.2.2.imp fun _ _ _ => trivial

/-- A state that counts the second of two events of one type; the guard stops it then. -/
def counter : Machine Nat Unit Unit := buildD
  { guards := [("low", Guard.ofContext fun n => decide (n < 1))]
    actions := [("count", .ofAssign fun n e =>
      if e.get? "n" = some (.num (.int 2)) then n + 1 else n)] }
  0 1000
  { key := "counter"
    initial := some "on"
    states := [{
      key := "on"
      on := [
        ⟨"GO", [{ actions := [.raise { type := "X", payload := [("n", .num (.int 1))] }] }]⟩,
        ⟨"X", [{
          guard := some "low"
          actions := [.named "count", .raise { type := "X", payload := [("n", .num (.int 2))] }]
        }]⟩] }] }

/-- The same moment comes up for the two events, so a cycle is reported; but the action tells
them apart, and without the look at earlier moments the macrostep comes to its end. -/
theorem counter_reports_cycle : ∃ s, counter.Reachable s ∧
    (counter.step s { type := "GO" } .live).isCycle = true ∧
    (counter.stepUnchecked s { type := "GO" } .live).result.isOk = true := by
  have h : (counter.initial.toOption.any fun s =>
      (counter.step s { type := "GO" } .live).isCycle &&
        (counter.stepUnchecked s { type := "GO" } .live).result.isOk) = true := by decide +kernel
  cases hs : counter.initial with
  | error failure => rw [hs] at h; cases h
  | ok s =>
    rw [hs] at h
    exact ⟨s, reachable_of_initial hs, Bool.and_eq_true_iff.mp h⟩

end Machine

end Statechart
