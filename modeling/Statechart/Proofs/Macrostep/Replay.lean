import Statechart.Proofs.Macrostep.Run

/-!
# Replay goes the way of the live machine

The mode of a macrostep decides whether effects are run, and what they give is read by nothing
that is run after them. So a live execution and a replayed one that differ in that only
(`ButEffects`) go on alike, until an effect fails: guards, assignments, entries, exits, the
moments of the loop and all other failures are the same (`Replayed`).

* `microstep_replayed`, `stabilize_replayed`: microsteps and the loop.
* `startStep_replay`, `step_replay`: macrosteps.
-/
namespace Statechart

variable {C E A : Type}

def Failure.ofEffect (r : Registry C E A) : Failure → Bool
  | .action name _ _ =>
    match r.action? name with
    | some (.effect _) => true
    | _ => false
  | _ => false

/-- `y` is `x` but for what effects gave. -/
def Execution.ButEffects (x y : Execution C E) : Prop := ∃ effects, y = { x with effects }

/-- What a live computation comes to, and next to it what a replayed one does: an effect of the
live one fails, or both fail alike, or both give results that are related. -/
inductive Replayed (r : Registry C E A) {α β : Type} (P : α → β → Prop) :
    Attempt E α → Attempt E β → Prop
  | effect {halt : Halt E} (h : halt.failure.ofEffect r = true) (replay : Attempt E β) :
      Replayed r P (.error halt) replay
  | failed {live replay : Halt E} (h : live.failure = replay.failure) :
      Replayed r P (.error live) (.error replay)
  | ok {a : α} {b : β} (h : P a b) : Replayed r P (.ok a) (.ok b)

/-- Where both sides make the same test, they are related if their branches are. -/
theorem both_branches {α β : Type} (R : α → β → Prop) {p : Prop} [Decidable p] {a a' : α}
    {b b' : β} (h : R a b) (h' : R a' b') : R (if p then a else a') (if p then b else b') := by
  split
  · exact h
  · exact h'

namespace Replayed

variable {r : Registry C E A} {α β γ δ : Type} {P : α → β → Prop} {Q : γ → δ → Prop}

theorem bind {x : Attempt E α} {y : Attempt E β} {f : α → Attempt E γ} {g : β → Attempt E δ}
    (h : Replayed r P x y) (hf : ∀ a b, P a b → Replayed r Q (f a) (g b)) :
    Replayed r Q (x >>= f) (y >>= g) := by
  cases h with
  | effect he replay => exact .effect he _
  | failed he => exact .failed he
  | ok hab => exact hf _ _ hab

theorem foldlM {f : α → γ → Attempt E α} {g : β → γ → Attempt E β}
    (hf : ∀ c a b, P a b → Replayed r P (f a c) (g b c)) :
    ∀ (l : List γ) {a b}, P a b → Replayed r P (l.foldlM f a) (l.foldlM g b)
  | [], _, _, h => .ok h
  | c :: l, _, _, h => by
    rw [List.foldlM_cons, List.foldlM_cons]
    exact (hf c _ _ h).bind fun _ _ h => foldlM hf l h

end Replayed

/-! ## Microsteps -/

namespace Execution

variable {r : Registry C E A} {c : Chart} {event : Event} {x y : Execution C E}

theorem runNamed_replayed (h : x.ButEffects y) (name : String) :
    Replayed r ButEffects (runNamed r .live event x name) (runNamed r .replay event y name) := by
  obtain ⟨effects, rfl⟩ := h
  unfold runNamed
  cases hr : r.action? name with
  | none => exact .failed rfl
  | some routine =>
    cases routine with
    | assign next =>
      dsimp only
      cases next x.context event with
      | ok context => exact .ok ⟨effects, rfl⟩
      | error message => exact .failed rfl
    | effect run =>
      dsimp only
      cases run x.context event with
      | ok value => exact .ok ⟨effects, rfl⟩
      | error message => exact .effect (by simp [Failure.ofEffect, hr]) _

theorem runActions_replayed (h : x.ButEffects y) (actions : List Action) :
    Replayed r ButEffects (runActions r .live event x actions)
      (runActions r .replay event y actions) := by
  refine Replayed.foldlM (fun action x y h => ?_) actions h
  obtain ⟨effects, rfl⟩ := h
  cases action with
  | named name => exact runNamed_replayed ⟨effects, rfl⟩ name
  | raise raised => exact .ok ⟨effects, rfl⟩
  | sendTo actor sent => exact .ok ⟨effects, rfl⟩

theorem exitStates_replayed (h : x.ButEffects y) (exits : NodeSet) :
    Replayed r ButEffects (exitStates c r .live event exits x)
      (exitStates c r .replay event exits y) := by
  refine Replayed.foldlM (fun n x y h => ?_) _ h
  refine (runActions_replayed h _).bind fun x y h => .ok ?_
  obtain ⟨effects, rfl⟩ := h
  exact ⟨effects, rfl⟩

theorem raiseCompletion_butEffects (h : x.ButEffects y) (n : Nat) :
    (raiseCompletion c n x).ButEffects (raiseCompletion c n y) := by
  obtain ⟨effects, rfl⟩ := h
  unfold raiseCompletion
  split
  · exact ⟨effects, rfl⟩
  · split
    · exact ⟨effects, rfl⟩
    · dsimp only
      split
      · exact ⟨effects, rfl⟩
      · -- the test of the grandparent reads the configuration only
        exact both_branches ButEffects ⟨effects, rfl⟩ ⟨effects, rfl⟩

theorem enterStates_replayed (h : x.ButEffects y) (entries : NodeSet) :
    Replayed r ButEffects (enterStates c r .live event entries x)
      (enterStates c r .replay event entries y) := by
  refine Replayed.foldlM (fun n x y h => ?_) _ h
  obtain ⟨effects, rfl⟩ := h
  unfold enterState
  refine (runActions_replayed (y := request _ _) ⟨effects, rfl⟩ _).bind fun x y h => .ok ?_
  split
  · exact raiseCompletion_butEffects h n
  · exact h

theorem enterSet_replayed (h : x.ButEffects y) (entries : Option NodeSet) :
    Replayed r ButEffects (enterSet c r .live event entries x)
      (enterSet c r .replay event entries y) := by
  cases entries with
  | none => exact .failed rfl
  | some entries => exact enterStates_replayed h entries

theorem microstep_replayed (h : x.ButEffects y) (transitions : List Nat) :
    Replayed r ButEffects (microstep c r .live transitions event x)
      (microstep c r .replay transitions event y) := by
  obtain ⟨effects, rfl⟩ := h
  unfold microstep
  refine (exitStates_replayed ⟨effects, rfl⟩ _).bind fun x y h => ?_
  have hactions : Replayed r ButEffects
      (transitions.foldlM (fun x t => runActions r .live event x (c.transition t).actions) x)
      (transitions.foldlM (fun y t => runActions r .replay event y (c.transition t).actions) y) :=
    Replayed.foldlM (fun t _ _ h => runActions_replayed h (c.transition t).actions) transitions h
  refine hactions.bind fun x y h => ?_
  obtain ⟨effects, rfl⟩ := h
  exact enterSet_replayed ⟨effects, rfl⟩ _

end Execution

/-! ## Macrosteps -/

namespace Machine

open Execution

variable {m : Machine C E A} {x y : Execution C E}

theorem next?_replayed (h : x.ButEffects y) (current : Event) :
    Replayed m.registry Eq (m.next? current x) (m.next? current y) := by
  obtain ⟨effects, rfl⟩ := h
  unfold next?
  split
  · exact .ok rfl
  · dsimp only
    cases m.choose x.configuration x.context current x.internal with
    | error failure => exact .failed rfl
    | ok choice => exact .ok rfl

theorem take_replayed (h : x.ButEffects y) (choice : Choice) :
    Replayed m.registry ButEffects (m.take .live x choice) (m.take .replay y choice) := by
  obtain ⟨effects, rfl⟩ := h
  exact microstep_replayed ⟨effects, rfl⟩ choice.transitions

variable [BEq C]

/-- The loop remembers the same moments and gives up in the same round, whatever the mode. -/
theorem stabilize_replayed {trigger : Event} {budget : Nat} {seen : List (Moment C)}
    {current : Event} (h : x.ButEffects y) :
    Replayed m.registry ButEffects (m.stabilize .live trigger budget seen current x)
      (m.stabilize .replay trigger budget seen current y) := by
  induction budget generalizing seen current x y with
  | zero =>
    rw [stabilize_eq, stabilize_eq]
    refine (next?_replayed h current).bind ?_
    rintro next _ rfl
    obtain ⟨effects, rfl⟩ := h
    cases next with
    | none => exact .ok ⟨effects, rfl⟩
    | some choice =>
      exact both_branches (Replayed m.registry ButEffects) (.failed rfl) (.failed rfl)
  | succ budget ih =>
    rw [stabilize_eq, stabilize_eq]
    refine (next?_replayed h current).bind ?_
    rintro next _ rfl
    have htake := fun choice => take_replayed (m := m) h choice
    obtain ⟨effects, rfl⟩ := h
    cases next with
    | none => exact .ok ⟨effects, rfl⟩
    | some choice =>
      exact both_branches (Replayed m.registry ButEffects) (.failed rfl)
        ((htake choice).bind fun _ _ h => ih h)

theorem settle_replayed {trigger : Event} (h : x.ButEffects y) :
    Replayed m.registry ButEffects (m.settle .live trigger x) (m.settle .replay trigger y) := by
  unfold settle
  obtain ⟨effects, rfl⟩ := h
  exact stabilize_replayed ⟨effects, rfl⟩

/-- Whether a result is the failure of an effect. -/
def EffectFails {α : Type} (m : Machine C E A) (result : Except Failure α) : Prop :=
  ∃ failure, result = .error failure ∧ failure.ofEffect m.registry = true

omit [BEq C] in
/-- Executions that are replayed give one result, unless an effect fails. -/
theorem outcome_replayed {live replay : Attempt E (Execution C E)}
    {finish : Execution C E → Macrostep C} (h : Replayed m.registry ButEffects live replay)
    (hf : ∀ x effects, finish { x with effects } = finish x) :
    (outcome finish live).result = (outcome finish replay).result ∨
      m.EffectFails (outcome finish live).result := by
  cases h with
  | effect he replay => exact .inr ⟨_, rfl, he⟩
  | failed he => exact .inl (congrArg Except.error he)
  | ok hxy =>
    obtain ⟨effects, rfl⟩ := hxy
    exact .inl (congrArg Except.ok (hf _ effects).symm)

/-- A start comes to the same in both modes, unless an effect fails. -/
theorem startStep_replay (m : Machine C E A) :
    (m.startStep .live).result = (m.startStep .replay).result ∨
      m.EffectFails (m.startStep .live).result := by
  unfold startStep runStart
  refine outcome_replayed ?_ fun _ _ => rfl
  exact (enterSet_replayed ⟨[], rfl⟩ _).bind fun _ _ h => settle_replayed h

/-- A step comes to the same in both modes, unless an effect fails. -/
theorem step_replay (m : Machine C E A) (s : Snapshot C) (event : Event) :
    (m.step s event .live).result = (m.step s event .replay).result ∨
      m.EffectFails (m.step s event .live).result := by
  unfold Machine.step
  split
  · exact .inl rfl
  · split
    · exact .inl rfl
    · exact .inl rfl
    · refine outcome_replayed ?_ fun _ _ => rfl
      exact (microstep_replayed ⟨[], rfl⟩ _).bind fun _ _ h => settle_replayed h

end Machine

end Statechart
