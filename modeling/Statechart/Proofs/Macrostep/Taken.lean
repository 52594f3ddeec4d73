import Statechart.Proofs.Macrostep.Failures
import Statechart.Proofs.Macrostep.Phases

/-!
# Where a microstep leads

Guards and actions have no say in where a set of transitions leads: the next configuration and
the next history follow from the ones before (`Chart.taken`). A microstep comes to them unless
one of its actions fails (`Attempt.ComesTo`), or there is no entry set.

* `microstep_comesTo`: one microstep.
* `microsteps_comesTo`: the transitions of a list in one microstep each.
* `enterInitial_comesTo`: the entry of the initial configuration.
-/
namespace Statechart

def Failure.ofAction : Failure → Bool
  | .action .. => true
  | _ => false

/-- The computation comes to a result with the property, unless an action fails. -/
def Attempt.ComesTo {E α : Type} (P : α → Prop) : Attempt E α → Prop
  | .ok a => P a
  | .error halt => halt.failure.ofAction = true

namespace Attempt.ComesTo

variable {E α β : Type} {P : α → Prop} {Q : β → Prop} {x : Attempt E α}

theorem of_fails (hok : ∀ a, x = .ok a → P a)
    (hfails : Fails (fun halt => halt.failure.ofAction = true) x) : x.ComesTo P := by
  cases x with
  | ok a => exact hok a rfl
  | error halt => exact hfails halt rfl

theorem bind {f : α → Attempt E β} (hx : x.ComesTo P) (hf : ∀ a, P a → (f a).ComesTo Q) :
    Attempt.ComesTo Q (x >>= f) := by
  cases x with
  | ok a => exact hf a hx
  | error halt => exact hx

end Attempt.ComesTo

namespace Chart

/-- The history after the states in a set were left in a configuration. -/
def historyAfter (c : Chart) (configuration exits : NodeSet) (history : Dict (List Nat)) :
    Dict (List Nat) :=
  exits.toList.foldl (Execution.recordChildren c configuration) history

/-- The configuration and the history that a set of transitions leads to, if it has an entry
set. -/
def taken (c : Chart) (transitions : List Nat) (before : NodeSet × Dict (List Nat)) :
    Option (NodeSet × Dict (List Nat)) :=
  let exits := c.exitSet before.1 transitions
  let history := c.historyAfter before.1 exits before.2
  (c.entrySet history transitions).map fun entries =>
    ((Execution.moves exits entries).foldl Move.apply before.1, history)

end Chart

namespace Execution

/-- An execution that has come to a configuration and a history, and nothing else is known of it. -/
def bare (configuration : NodeSet) (history : Dict (List Nat)) : Execution Unit Unit :=
  { configuration, context := (), history }

variable {C E A : Type} {c : Chart} {r : Registry C E A} {mode : Mode} {event : Event}
  {x : Execution C E}

theorem runActions_ofAction (x : Execution C E) (actions : List Action) :
    Fails (fun halt => halt.failure.ofAction = true) (runActions r mode event x actions) :=
  runActions_fails (P := fun f => f.ofAction = true) (fun _ _ _ => rfl) (fun _ _ _ _ => rfl) x

theorem run_ofAction (x : Execution C E) (p : Phase) :
    Fails (fun halt => halt.failure.ofAction = true) (p.run c r mode event x) := by
  cases p with
  | exit n => exact (runActions_ofAction x _).bind fun _ => .ok _
  | act t => exact runActions_ofAction x _
  | enter n => exact (runActions_ofAction _ _).bind fun _ => .ok _

/-- A microstep comes to where its transitions lead. -/
theorem microstep_comesTo {transitions : List Nat} {s : NodeSet} {history : Dict (List Nat)}
    (h : c.taken transitions (x.configuration, x.history) = some (s, history)) :
    (microstep c r mode transitions event x).ComesTo fun y =>
      y.configuration = s ∧ y.history = history := by
  obtain ⟨entries, he, hs⟩ := Option.map_eq_some_iff.mp h
  refine .of_fails (fun y hy => ?_) ?_
  · obtain ⟨entries', he', hmoved⟩ := microstep_spec hy
    obtain rfl : entries' = entries := Option.some.inj (he'.symm.trans he)
    cases hs
    exact ⟨hmoved.configuration, hmoved.history⟩
  · rw [microstep_eq_run he]
    exact Fails.foldlM fun x p _ => run_ofAction x p

/-- Transitions that are taken one at a time, each in a microstep of its own, come to where they
lead one after the other. -/
theorem microsteps_comesTo {s : NodeSet} {history : Dict (List Nat)} :
    ∀ {transitions : List Nat} {x : Execution C E},
      transitions.foldlM (fun before t => c.taken [t] before) (x.configuration, x.history) =
        some (s, history) →
      Attempt.ComesTo (fun y => y.configuration = s ∧ y.history = history)
        (transitions.foldlM (fun x t => microstep c r mode [t] event x) x)
  | [], x, h => by cases h; exact ⟨rfl, rfl⟩
  | t :: transitions, x, h => by
    simp only [List.foldlM_cons, Option.bind_eq_bind, Option.bind_eq_some_iff] at h
    obtain ⟨⟨s', history'⟩, ht, h⟩ := h
    rw [List.foldlM_cons]
    refine (microstep_comesTo ht).bind fun y hy => ?_
    obtain ⟨rfl, rfl⟩ := hy
    exact microsteps_comesTo h

/-- The entry of the initial configuration comes to the initial entry set. -/
theorem enterInitial_comesTo {entries : NodeSet} (h : c.initialEntrySet = some entries)
    (hx : x.configuration = ∅) :
    (enterInitial c r mode event x).ComesTo fun y => y.configuration = entries := by
  refine .of_fails (fun y hy => ?_) ?_
  · obtain ⟨entries', he', hmoved⟩ := enterInitial_spec hy
    obtain rfl : entries' = entries := Option.some.inj (he'.symm.trans h)
    rw [hmoved.configuration]
    refine NodeSet.ext fun n => ?_
    rw [mem_foldl_enter, hx]
    exact or_iff_right NodeSet.mem_empty.mp
  · rw [enterInitial, h]
    exact Fails.foldlM fun x n _ => run_ofAction x (.enter n)

end Execution

end Statechart
