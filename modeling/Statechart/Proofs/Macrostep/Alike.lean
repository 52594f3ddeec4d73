import Mathlib.Data.List.Forall2
import Mathlib.Data.Option.Defs
import Statechart.Proofs.Macrostep.Run

/-!
# Executions that guards and actions cannot tell apart

A microstep reads the configuration, the history and the context of an execution, and the
event it handles; labels, commands, effects and counts are only written. So two executions
with one configuration and history, and with contexts and events that no guard or action
tells apart (`Registry.Blind`), go the same way: what is chosen is the same, and microsteps
lead to executions that are alike again. The loop also looks at earlier moments, so it goes the
same way where contexts and the events that wait are equal and only the event handled is not.

* `select_alike`, `next?_alike`: choices.
* `microstep_alike`, `take_alike`: microsteps.
* `transition_alike`: macrosteps for events that cannot be told apart.
-/
namespace Statechart

/-! ## Related results -/

/-- Both fail, or both give results that are related. -/
inductive Both {ε ε' α β : Type} (P : α → β → Prop) : Except ε α → Except ε' β → Prop
  | error (e : ε) (e' : ε') : Both P (.error e) (.error e')
  | ok {a b} (h : P a b) : Both P (.ok a) (.ok b)

namespace Both

variable {ε ε' α β γ δ : Type} {P : α → β → Prop} {Q : γ → δ → Prop}

theorem bind {x : Except ε α} {y : Except ε' β} {f : α → Except ε γ} {g : β → Except ε' δ}
    (h : Both P x y) (hf : ∀ a b, P a b → Both Q (f a) (g b)) : Both Q (x >>= f) (y >>= g) := by
  cases h with
  | error e e' => exact .error e e'
  | ok hab => exact hf _ _ hab

theorem imp_ok {P' : α → β → Prop} {x : Except ε α} {y : Except ε' β} (h : Both P x y)
    (hP : ∀ a b, x = .ok a → y = .ok b → P a b → P' a b) : Both P' x y := by
  cases h with
  | error e e' => exact .error e e'
  | ok hab => exact .ok (hP _ _ rfl rfl hab)

theorem foldlM {f : α → γ → Except ε α} {g : β → γ → Except ε' β}
    (hf : ∀ c a b, P a b → Both P (f a c) (g b c)) :
    ∀ (l : List γ) {a b}, P a b → Both P (l.foldlM f a) (l.foldlM g b)
  | [], _, _, h => .ok h
  | c :: l, _, _, h => by
    rw [List.foldlM_cons, List.foldlM_cons]
    exact (hf c _ _ h).bind fun _ _ h => foldlM hf l h

theorem mapM {f : γ → Except ε α} {g : γ → Except ε' α} (hf : ∀ c, Both Eq (f c) (g c)) :
    ∀ l : List γ, Both Eq (l.mapM f) (l.mapM g)
  | [] => .ok rfl
  | c :: l => by
    rw [List.mapM_cons, List.mapM_cons]
    refine (hf c).bind ?_
    rintro a _ rfl
    refine (mapM hf l).bind ?_
    rintro as _ rfl
    exact .ok rfl

end Both

/-! ## What cannot be told apart -/

/-- No guard or action tells contexts in `R` apart, or events in `S`, as the event handled. -/
structure Registry.Blind {C E A : Type} (r : Registry C E A) (R : C → C → Prop)
    (S : Event → Event → Prop) : Prop where
  refl : ∀ e, S e e
  guard : ∀ {name g}, r.guard? name = some g → ∀ {c c' e e'}, R c c' → S e e' →
    Both Eq (g c e) (g c' e')
  assign : ∀ {name f}, r.action? name = some (.assign f) → ∀ {c c' e e'}, R c c' → S e e' →
    Both R (f c e) (f c' e')
  effect : ∀ {name f}, r.action? name = some (.effect f) → ∀ {c c' e e'}, R c c' → S e e' →
    Both (fun _ _ => True) (f c e) (f c' e')

theorem both_self {ε α : Type} {P : α → α → Prop} (hP : ∀ a, P a a) (x : Except ε α) :
    Both P x x := by
  cases x with
  | error e => exact .error e e
  | ok a => exact .ok (hP a)

theorem Registry.blind_eq {C E A : Type} (r : Registry C E A) : r.Blind Eq Eq where
  refl _ := rfl
  guard _ := by rintro c _ e _ rfl rfl; exact both_self (fun _ => rfl) _
  assign _ := by rintro c _ e _ rfl rfl; exact both_self (fun _ => rfl) _
  effect _ := by rintro c _ e _ rfl rfl; exact both_self (fun _ => trivial) _

/-- Queues of events that are alike one by one and are for the same handlers. -/
def SameQueue (S : Event → Event → Prop) (q q' : List Event) : Prop :=
  List.Forall₂ (fun e e' => S e e' ∧ e.type = e'.type) q q'

theorem sameQueue_refl {S : Event → Event → Prop} (hS : ∀ e, S e e) (q : List Event) :
    SameQueue S q q := List.forall₂_same.mpr fun e _ => ⟨hS e, rfl⟩

theorem sameQueue_eq {q q' : List Event} : SameQueue Eq q q' ↔ q = q' := by
  have h : (fun e e' : Event => e = e' ∧ e.type = e'.type) = Eq := by
    funext e e'
    exact propext ⟨fun h => h.1, fun h => ⟨h, congrArg Event.type h⟩⟩
  rw [SameQueue, h, List.forall₂_eq_eq_eq]

/-- Choices of the same transitions, for events in `S`, with those that wait in `Q`. -/
structure Choice.Like (S Q : Event → Event → Prop) (a b : Choice) : Prop where
  transitions : a.transitions = b.transitions
  event : S a.event b.event
  internal : SameQueue Q a.internal b.internal

variable {C E A : Type} {R : C → C → Prop} {S Q : Event → Event → Prop}

/-- Executions that cannot be told apart, with the events that wait in `Q`. -/
structure Execution.Like (R : C → C → Prop) (Q : Event → Event → Prop) (x y : Execution C E) :
    Prop where
  configuration : x.configuration = y.configuration
  history : x.history = y.history
  context : R x.context y.context
  internal : SameQueue Q x.internal y.internal

/-! ## Choices -/

section Select

variable {r : Registry C E A} (hb : r.Blind R S) {c : Chart} {ctx ctx' : C} {e e' : Event}
include hb

theorem permits_alike (hc : R ctx ctx') (he : S e e') (t : Nat) :
    Both Eq (r.permits c ctx e t) (r.permits c ctx' e' t) := by
  unfold Registry.permits
  cases (c.transition t).guard with
  | none => exact .ok rfl
  | some name =>
    dsimp only
    cases hg : r.guard? name with
    | none => exact .error _ _
    | some g =>
      dsimp only
      have hboth := hb.guard hg hc he
      generalize g ctx e = u at hboth
      generalize g ctx' e' = v at hboth
      cases hboth with
      | error _ _ => exact .error _ _
      | ok h => subst h; exact .ok rfl

theorem firstPermitted_alike (hc : R ctx ctx') (he : S e e') :
    ∀ l : List Nat, Both Eq (r.firstPermitted c ctx e l) (r.firstPermitted c ctx' e' l)
  | [] => .ok rfl
  | t :: rest => by
    unfold Registry.firstPermitted
    refine (permits_alike hb hc he t).bind ?_
    rintro passes _ rfl
    cases passes with
    | true => exact .ok rfl
    | false => exact firstPermitted_alike hc he rest

theorem select_alike (hc : R ctx ctx') (he : S e e') {configuration : NodeSet} {trigger : Trigger}
    (ht : trigger = .event → e.type = e'.type) :
    Both Eq (r.select c configuration ctx e trigger) (r.select c configuration ctx' e' trigger) := by
  have hcand : c.candidates trigger e = c.candidates trigger e' := by
    funext leaf
    unfold Chart.candidates
    refine congrArg (List.flatMap · _) ?_
    funext n
    cases trigger with
    | event => simp only [Chart.offered, ht rfl]
    | eventless => rfl
  unfold Registry.select Registry.picks
  rw [hcand]
  refine Both.bind (P := Eq) ?_ ?_
  · refine (Both.mapM (fun leaf => firstPermitted_alike hb hc he _) _).bind ?_
    rintro ps _ rfl
    exact .ok rfl
  · rintro picks _ rfl
    exact .ok rfl

end Select

section Next

variable {m : Machine C E A} (hb : m.registry.Blind R S) (hQ : ∀ {e e'}, Q e e' → S e e')
include hb hQ

theorem choose_alike (configuration : NodeSet) {ctx ctx' : C} (hc : R ctx ctx')
    {q q' : List Event} (hq : SameQueue Q q q') {e e' : Event} (he : S e e') :
    Both (Option.Rel (Choice.Like S Q)) (m.choose configuration ctx e q)
      (m.choose configuration ctx' e' q') := by
  unfold SameQueue at hq
  induction hq generalizing e e' with
  | nil =>
    unfold Machine.choose
    refine (select_alike hb hc he fun h => by cases h).bind ?_
    rintro eventless _ rfl
    split
    · exact .ok .none
    · exact .ok (.some ⟨rfl, he, .nil⟩)
  | cons hr hq ih =>
    unfold Machine.choose
    refine (select_alike hb hc he fun h => by cases h).bind ?_
    rintro eventless _ rfl
    split
    · exact .ok (.some ⟨rfl, he, .cons hr hq⟩)
    · refine (select_alike hb hc (hQ hr.1) fun _ => hr.2).bind ?_
      rintro selected _ rfl
      split
      · exact .ok (.some ⟨rfl, hQ hr.1, hq⟩)
      · exact ih (hQ hr.1)

theorem next?_alike {x y : Execution C E} (hx : x.Like R Q y) {e e' : Event} (he : S e e') :
    Both (Option.Rel (Choice.Like S Q)) (m.next? e x) (m.next? e' y) := by
  unfold Machine.next?
  rw [hx.configuration]
  split
  · exact .ok .none
  · unfold Execution.attempt
    have hboth := choose_alike hb hQ y.configuration hx.context hx.internal he
    generalize m.choose y.configuration x.context e x.internal = u at hboth
    generalize m.choose y.configuration y.context e' y.internal = v at hboth
    cases hboth with
    | error _ _ => exact .error _ _
    | ok h => exact .ok h

end Next

/-! ## Microsteps -/

namespace Execution

section Steps

variable {r : Registry C E A} (hb : r.Blind R S) {c : Chart} {mode : Mode} {e e' : Event}
  (he : S e e') (hQ : ∀ e, Q e e)
include hQ

theorem Like.raise {x y : Execution C E} (hx : x.Like R Q y) (event : Event) :
    (x.raise event).Like R Q (y.raise event) :=
  { hx with internal := List.rel_append hx.internal (sameQueue_refl hQ [event]) }

theorem raiseCompletion_alike {x y : Execution C E} (hx : x.Like R Q y) (n : Nat) :
    (raiseCompletion c n x).Like R Q (raiseCompletion c n y) := by
  have hconf : ∀ event n, c.isComplete (x.raise event).configuration n =
      c.isComplete (y.raise event).configuration n := fun event n =>
    congrArg (c.isComplete · n) hx.configuration
  unfold raiseCompletion
  split
  · exact hx
  · split
    · exact hx
    · dsimp only
      split
      · exact hx.raise hQ _
      · rw [hconf]
        split
        · exact (hx.raise hQ _).raise hQ _
        · exact hx.raise hQ _

omit hQ in
include hb he in
theorem runNamed_alike {x y : Execution C E} (hx : x.Like R Q y) (name : String) :
    Both (Like R Q) (runNamed r mode e x name) (runNamed r mode e' y name) := by
  unfold runNamed
  cases hr : r.action? name with
  | none => exact .error _ _
  | some routine =>
    cases routine with
    | assign next =>
      dsimp only
      have hboth := hb.assign hr hx.context he
      generalize next x.context e = u at hboth
      generalize next y.context e' = v at hboth
      cases hboth with
      | error _ _ => exact .error _ _
      | ok h => exact .ok ⟨hx.configuration, hx.history, h, hx.internal⟩
    | effect run =>
      cases mode with
      | replay => exact .ok hx
      | live =>
        dsimp only
        have hboth := hb.effect hr hx.context he
        generalize run x.context e = u at hboth
        generalize run y.context e' = v at hboth
        cases hboth with
        | error _ _ => exact .error _ _
        | ok _ => exact .ok ⟨hx.configuration, hx.history, hx.context, hx.internal⟩

include hb he

theorem runActions_alike {x y : Execution C E} (hx : x.Like R Q y) (actions : List Action) :
    Both (Like R Q) (runActions r mode e x actions) (runActions r mode e' y actions) := by
  refine Both.foldlM (fun action x y hx => ?_) actions hx
  have hlabel : Like R Q { x with actions := x.actions ++ [action.label] }
      { y with actions := y.actions ++ [action.label] } :=
    ⟨hx.configuration, hx.history, hx.context, hx.internal⟩
  unfold runAction
  cases action with
  | named name => exact runNamed_alike hb he hlabel name
  | raise raised => exact .ok (Like.raise hQ hlabel raised)
  | sendTo actor sent => exact .ok ⟨hx.configuration, hx.history, hx.context, hx.internal⟩

theorem exitStates_alike {x y : Execution C E} (hx : x.Like R Q y) (exits : NodeSet) :
    Both (Like R Q) (exitStates c r mode e exits x) (exitStates c r mode e' exits y) := by
  refine Both.foldlM (fun n x y hx => ?_) _ hx
  refine (runActions_alike hb he hQ hx _).bind fun x y hx => .ok ?_
  exact ⟨congrArg (NodeSet.erase n) hx.configuration, hx.history, hx.context, hx.internal⟩

theorem enterStates_alike {x y : Execution C E} (hx : x.Like R Q y) (entries : NodeSet) :
    Both (Like R Q) (enterStates c r mode e entries x) (enterStates c r mode e' entries y) := by
  refine Both.foldlM (fun n x y hx => ?_) _ hx
  unfold enterState
  have hins : Like R Q
      (({ x with configuration := x.configuration.insert n }).request (Command.onEntry c n))
      (({ y with configuration := y.configuration.insert n }).request (Command.onEntry c n)) :=
    ⟨congrArg (NodeSet.insert n) hx.configuration, hx.history, hx.context, hx.internal⟩
  refine (runActions_alike hb he hQ hins _).bind fun x y hx => .ok ?_
  split
  · exact raiseCompletion_alike hQ hx n
  · exact hx

theorem microstep_alike {x y : Execution C E} (hx : x.Like R Q y) (transitions : List Nat) :
    Both (Like R Q) (microstep c r mode transitions e x) (microstep c r mode transitions e' y) := by
  have hexits : c.exitSet x.configuration transitions = c.exitSet y.configuration transitions :=
    congrArg (c.exitSet · transitions) hx.configuration
  unfold microstep
  dsimp only
  rw [hexits]
  have hrec : Like R Q
      (recordHistory c (c.exitSet y.configuration transitions)
        { x with microsteps := x.microsteps + 1 })
      (recordHistory c (c.exitSet y.configuration transitions)
        { y with microsteps := y.microsteps + 1 }) :=
    ⟨hx.configuration, by simp only [recordHistory]; rw [hx.configuration, hx.history],
      hx.context, hx.internal⟩
  refine (exitStates_alike hb he hQ hrec _).bind fun x y hx => ?_
  have hactions : Both (Like R Q)
      (transitions.foldlM (fun x t => runActions r mode e x (c.transition t).actions) x)
      (transitions.foldlM (fun y t => runActions r mode e' y (c.transition t).actions) y) :=
    Both.foldlM (fun t _ _ hx => runActions_alike hb he hQ hx (c.transition t).actions)
      transitions hx
  refine hactions.bind fun x y hx => ?_
  rw [hx.history]
  unfold enterSet
  split
  · exact .error _ _
  · exact enterStates_alike hb he hQ hx _

end Steps

end Execution

/-- Choices that are alike lead to executions that are alike. -/
theorem take_alike {m : Machine C E A} (hb : m.registry.Blind R S) (hQ : ∀ e, Q e e) (mode : Mode)
    {x y : Execution C E} {choice choice' : Choice} (hconf : x.configuration = y.configuration)
    (hhist : x.history = y.history) (hctx : R x.context y.context)
    (hc : choice.Like S Q choice') :
    Both (Execution.Like R Q) (m.take mode x choice) (m.take mode y choice') := by
  unfold Machine.take
  rw [hc.transitions]
  exact Execution.microstep_alike hb hc.event hQ (x := { x with internal := choice.internal })
    (y := { y with internal := choice'.internal }) ⟨hconf, hhist, hctx, hc.internal⟩ _

/-! ## Macrosteps -/

/-- Snapshots that a macrostep goes on alike from, whatever event came last. -/
structure Snapshot.SameState {C : Type} (s t : Snapshot C) : Prop where
  configuration : s.configuration = t.configuration
  context : s.context = t.context
  history : s.history = t.history

section Loop

variable [BEq C] {m : Machine C E A} (hb : m.registry.Blind Eq S)
include hb

/-- The loop comes to the same end for events that cannot be told apart. -/
theorem stabilize_alike (mode : Mode) {trigger trigger' : Event} : ∀ (budget : Nat)
    {seen : List (Moment C)} {current current' : Event} {x y : Execution C E},
    S current current' → x.Like Eq Eq y →
    Both (Execution.Like Eq Eq) (m.stabilize mode trigger budget seen current x)
      (m.stabilize mode trigger' budget seen current' y)
  | budget, seen, current, current', x, y, he, hx => by
    have hsub : ∀ {e e' : Event}, e = e' → S e e' := fun h => h ▸ hb.refl _
    rw [Machine.stabilize_eq, Machine.stabilize_eq]
    refine (next?_alike hb hsub hx he).bind ?_
    rintro _ _ (⟨hc⟩ | _)
    · rename_i choice choice'
      have hmoment : Machine.momentOf x choice = Machine.momentOf y choice' := by
        rw [Machine.momentOf, Machine.momentOf, hc.transitions, hx.configuration, hx.context,
          hx.history, sameQueue_eq.mp hc.internal]
      dsimp only
      rw [hmoment]
      split
      · exact .error _ _
      · cases budget with
        | zero => exact .error _ _
        | succ budget =>
          exact (take_alike hb (fun _ => rfl) mode hx.configuration hx.history hx.context hc).bind
            fun x y hx => stabilize_alike mode budget hc.event hx
    · exact .ok hx

theorem runStep_alike (mode : Mode) (s : Snapshot C) (transitions : List Nat)
    {event event' : Event} (he : S event event') :
    Both (Execution.Like Eq Eq) (m.runStep mode s event transitions)
      (m.runStep mode s event' transitions) := by
  have hstart : (Machine.execution s : Execution C E).Like Eq Eq (Machine.execution s) :=
    ⟨rfl, rfl, rfl, sameQueue_eq.mpr rfl⟩
  -- both have made one microstep, so there is as much left under the ceiling
  have hfirst : Both (fun x y => x.Like Eq Eq y ∧ x.microsteps = y.microsteps)
      (Execution.microstep m.chart m.registry mode transitions event (Machine.execution s))
      (Execution.microstep m.chart m.registry mode transitions event' (Machine.execution s)) := by
    refine (Execution.microstep_alike hb he (fun _ => rfl) hstart transitions).imp_ok ?_
    intro x y hx hy hlike
    obtain ⟨_, -, hmx⟩ := Execution.microstep_spec hx
    obtain ⟨_, -, hmy⟩ := Execution.microstep_spec hy
    exact ⟨hlike, hmx.microsteps.trans hmy.microsteps.symm⟩
  unfold Machine.runStep
  refine hfirst.bind fun x y ⟨hlike, hcount⟩ => ?_
  unfold Machine.settle
  rw [hcount]
  exact stabilize_alike hb mode _ he hlike

/-- Events that guards and actions cannot tell apart lead to the same: to failures, or to
snapshots with one configuration, context and history. -/
theorem transition_alike (s : Snapshot C) {event event' : Event} (htype : event.type = event'.type)
    (he : S event event') :
    Both Snapshot.SameState (m.transition s event) (m.transition s event') := by
  unfold Machine.transition Machine.step
  split
  · exact .ok ⟨rfl, rfl, rfl⟩
  · have hsel : Both Eq (m.registry.select m.chart s.configuration s.context event .event)
        (m.registry.select m.chart s.configuration s.context event' .event) :=
      select_alike hb rfl he fun _ => htype
    generalize m.registry.select m.chart s.configuration s.context event .event = u at hsel
    generalize m.registry.select m.chart s.configuration s.context event' .event = v at hsel
    cases hsel with
    | error => exact .error _ _
    | ok h =>
      subst h
      rename_i transitions
      cases transitions with
      | nil => exact .ok ⟨rfl, rfl, rfl⟩
      | cons t rest =>
        have hrun := runStep_alike hb .replay s (t :: rest) he
        dsimp only
        generalize m.runStep .replay s event (t :: rest) = u at hrun
        generalize m.runStep .replay s event' (t :: rest) = v at hrun
        cases hrun with
        | error => exact .error _ _
        | ok h => exact .ok ⟨h.configuration, h.context, h.history⟩

end Loop

end Statechart
