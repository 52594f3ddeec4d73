import Statechart.Proofs.Macrostep.Run

/-!
# What a macrostep can fail with

A selection fails for a guard, a microstep for an action or for an entry that leads back to
itself (`Failure.Covers`). So reports of cycles and of the ceiling come from the loop alone
(`Failure.ofLoop`), and a name is reported to be missing only if it is not registered.
-/
namespace Statechart

/-- Whether it is the loop of a macrostep that gave up. -/
def Failure.ofLoop : Failure → Bool
  | .cycle .. | .microstepLimit .. => true
  | _ => false

/-- Whatever the computation fails with has the property. -/
def Fails {ε α : Type} (P : ε → Prop) (x : Except ε α) : Prop := ∀ e, x = .error e → P e

namespace Fails

variable {ε α β : Type} {P : ε → Prop}

theorem ok (a : α) : Fails P (.ok a : Except ε α) := fun _ h => by cases h

theorem error {e : ε} (h : P e) : Fails P (.error e : Except ε α) :=
  fun _ he => by cases he; exact h

theorem bind {x : Except ε α} {f : α → Except ε β} (hx : Fails P x) (hf : ∀ a, Fails P (f a)) :
    Fails P (x >>= f) := by
  cases x with
  | error e => exact error (hx e rfl)
  | ok a => exact hf a

theorem foldlM {f : β → α → Except ε β} :
    ∀ {l : List α} {b : β}, (∀ b, ∀ a ∈ l, Fails P (f b a)) → Fails P (l.foldlM f b)
  | [], b, _ => ok b
  | a :: l, b, hf => by
    rw [List.foldlM_cons]
    exact (hf b a List.mem_cons_self).bind fun _ =>
      foldlM fun b x hx => hf b x (List.mem_cons_of_mem _ hx)

theorem mapM {f : α → Except ε β} (hf : ∀ a, Fails P (f a)) : ∀ l : List α, Fails P (l.mapM f)
  | [] => ok []
  | a :: l => by
    rw [List.mapM_cons]
    exact (hf a).bind fun b => (mapM hf l).bind fun bs => ok (b :: bs)

end Fails

variable {C E A : Type} {r : Registry C E A} {c : Chart} {P : Failure → Prop}

/-- A property covers the failures of a registry in these actions: those that say that a name is
missing only if it is. -/
def Failure.CoversActions (r : Registry C E A) (P : Failure → Prop) (actions : List Action) :
    Prop :=
  ∀ name, .named name ∈ actions → r.action? name = none →
    ∀ event, P (.action name event .unregistered)

/-- A property covers what the selections and the microsteps of a chart may fail with. -/
structure Failure.Covers (r : Registry C E A) (c : Chart) (P : Failure → Prop) : Prop where
  guard : ∀ t, ∀ name ∈ (c.transition t).guard, r.guard? name = none →
    ∀ event, P (.guard name event .unregistered)
  guardFailed : ∀ name event message, P (.guard name event (.failed message))
  entry : ∀ n, CoversActions r P (c.node n).entry
  exit : ∀ n, CoversActions r P (c.node n).exit
  actions : ∀ t, CoversActions r P (c.transition t).actions
  actionFailed : ∀ name event message, P (.action name event (.failed message))
  endlessEntry : ∀ event, P (.endlessEntry event)

/-- None of them is a report of the loop. -/
theorem Failure.Covers.ofLoop : Covers r c fun f => f.ofLoop = false where
  guard _ _ _ _ _ := rfl
  guardFailed _ _ _ := rfl
  entry _ _ _ _ _ := rfl
  exit _ _ _ _ _ := rfl
  actions _ _ _ _ _ := rfl
  actionFailed _ _ _ := rfl
  endlessEntry _ := rfl

/-! ## Selections -/

namespace Registry

variable {context : C} {event : Event} (hP : Failure.Covers r c P)
include hP

theorem permits_fails (t : Nat) : Fails P (r.permits c context event t) := by
  unfold permits
  split
  · exact .ok _
  · rename_i name hname
    split
    · rename_i hr
      exact .error (hP.guard t name hname hr event.type)
    · split
      · exact .ok _
      · exact .error (hP.guardFailed name event.type _)

theorem firstPermitted_fails : ∀ l : List Nat, Fails P (r.firstPermitted c context event l)
  | [] => .ok _
  | t :: rest => by
    unfold firstPermitted
    refine (permits_fails hP t).bind fun passes => ?_
    cases passes with
    | true => exact .ok _
    | false => exact firstPermitted_fails rest

theorem select_fails (configuration : NodeSet) (trigger : Trigger) :
    Fails P (r.select c configuration context event trigger) := by
  unfold select picks
  refine Fails.bind ?_ fun _ => .ok _
  exact (Fails.mapM (fun leaf => firstPermitted_fails hP _) _).bind fun _ => .ok _

end Registry

theorem Machine.choose_fails {m : Machine C E A} (hP : Failure.Covers m.registry m.chart P)
    (configuration : NodeSet) (context : C) : ∀ (internal : List Event) (current : Event),
      Fails P (m.choose configuration context current internal)
  | [], current => by
    unfold choose
    exact (Registry.select_fails hP _ _).bind fun _ => .ok _
  | raised :: rest, current => by
    unfold choose
    refine (Registry.select_fails hP _ _).bind fun eventless => ?_
    split
    · exact .ok _
    · refine (Registry.select_fails hP _ _).bind fun selected => ?_
      split
      · exact .ok _
      · exact choose_fails hP configuration context rest raised

theorem Machine.next?_fails {m : Machine C E A} (hP : Failure.Covers m.registry m.chart P)
    (current : Event) (x : Execution C E) :
    Fails (fun halt => P halt.failure) (m.next? current x) := by
  unfold next?
  split
  · exact .ok _
  · have hc := choose_fails hP x.configuration x.context x.internal current
    unfold Execution.attempt
    cases hx : m.choose x.configuration x.context current x.internal with
    | ok next => exact .ok _
    | error failure => exact .error (hc failure hx)

/-! ## Microsteps -/

namespace Execution

variable {mode : Mode} {event : Event}

theorem runNamed_fails (hfailed : ∀ name event message, P (.action name event (.failed message)))
    {name : String} (hname : r.action? name = none → ∀ event, P (.action name event .unregistered))
    (x : Execution C E) : Fails (fun halt => P halt.failure) (runNamed r mode event x name) := by
  unfold runNamed
  split
  · rename_i hr
    exact .error (hname hr event.type)
  · split
    · exact .ok _
    · exact .error (hfailed name event.type _)
  · split
    · exact .ok _
    · split
      · exact .ok _
      · exact .error (hfailed name event.type _)

theorem runActions_fails (hfailed : ∀ name event message, P (.action name event (.failed message)))
    {actions : List Action} (ha : Failure.CoversActions r P actions) (x : Execution C E) :
    Fails (fun halt => P halt.failure) (runActions r mode event x actions) := by
  refine Fails.foldlM fun x action hm => ?_
  cases action with
  | named name => exact runNamed_fails hfailed (ha name hm) _
  | raise raised => exact .ok _
  | sendTo actor sent => exact .ok _

variable (hP : Failure.Covers r c P)
include hP

theorem exitStates_fails (x : Execution C E) (exits : NodeSet) :
    Fails (fun halt => P halt.failure) (exitStates c r mode event exits x) :=
  Fails.foldlM fun x n _ =>
    (runActions_fails hP.actionFailed (hP.exit n) x).bind fun _ => .ok _

theorem enterSet_fails (entries : Option NodeSet) (x : Execution C E) :
    Fails (fun halt => P halt.failure) (enterSet c r mode event entries x) := by
  unfold enterSet
  split
  · exact .error (hP.endlessEntry event.type)
  · exact Fails.foldlM fun x n _ =>
      (runActions_fails hP.actionFailed (hP.entry n) _).bind fun _ => .ok _

theorem microstep_fails (x : Execution C E) (transitions : List Nat) :
    Fails (fun halt => P halt.failure) (microstep c r mode transitions event x) := by
  unfold microstep
  refine (exitStates_fails hP _ _).bind fun x => ?_
  exact (Fails.foldlM fun x t _ => runActions_fails hP.actionFailed (hP.actions t) x).bind
    fun x => enterSet_fails hP _ x

end Execution

/-! ## Macrosteps -/

namespace Machine

variable {m : Machine C E A} (hP : Failure.Covers m.registry m.chart P)
  (hcycle : ∀ state event transitions, P (.cycle state event transitions))
  (hlimit : ∀ event limit, P (.microstepLimit event limit)) {mode : Mode}

theorem outcome_fails {finish : Execution C E → Macrostep C} {y : Attempt E (Execution C E)}
    (hy : Fails (fun halt => P halt.failure) y) : Fails P (outcome finish y).result := by
  cases y with
  | ok x => exact .ok _
  | error halt => exact .error (hy halt rfl)

include hP

theorem exitStep_fails (s : Snapshot C) : Fails P (m.exitStep s mode).result :=
  outcome_fails (Execution.exitStates_fails hP (execution s) s.configuration)

include hcycle hlimit
variable [BEq C]

theorem stabilize_fails (trigger : Event) (budget : Nat) (seen : List (Moment C)) (current : Event)
    (x : Execution C E) :
    Fails (fun halt => P halt.failure) (m.stabilize mode trigger budget seen current x) := by
  intro halt hx
  have hr := m.rounds_stabilize mode trigger budget seen current x
  rw [hx] at hr
  clear hx
  obtain ⟨result, hy⟩ : ∃ result : Attempt E (Execution C E), .error halt = result := ⟨_, rfl⟩
  rw [hy] at hr
  induction hr with
  | failed hn => cases hy; exact next?_fails hP _ _ halt hn
  | ended => cases hy
  | cycle => cases hy; exact hcycle _ _ _
  | limit => cases hy; exact hlimit _ _
  | halted _ _ ht => cases hy; exact Execution.microstep_fails hP _ _ halt ht
  | took _ _ _ _ ih => exact ih hy

theorem startStep_fails : Fails P (m.startStep mode).result := by
  refine outcome_fails (Fails.bind ?_ fun x => stabilize_fails hP hcycle hlimit _ _ _ _ x)
  exact Execution.enterSet_fails hP _ _

theorem step_fails (s : Snapshot C) (event : Event) : Fails P (m.step s event mode).result := by
  unfold Machine.step
  split
  · exact .ok _
  · have hselect : Fails P (m.registry.select m.chart s.configuration s.context event .event) :=
      Registry.select_fails hP _ _
    split
    · rename_i failure hf
      exact .error (hselect failure hf)
    · exact .ok _
    · refine outcome_fails (Fails.bind ?_ fun x => stabilize_fails hP hcycle hlimit _ _ _ _ x)
      exact Execution.microstep_fails hP _ _

end Machine

end Statechart
