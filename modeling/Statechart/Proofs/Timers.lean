import Mathlib.Data.List.Nodup
import Statechart.Proofs.Macrostep.Run
import Statechart.Timers

/-!
# Timers in their order

Timers go by the time they are due and, of those due at one time, by their numbers. A clock
keeps this order for ever: what is pending is due no earlier than now, what has fired was due
no later, and whatever is scheduled later has a higher number. So all that has fired goes
before all that is pending (`Clocked`). A timer is taken out with the state on whose behalf it
was scheduled (`OwnedBy`), since leaving a state with timers cancels them.

* `Clocked.take`, `Clocked.advanceTo`, `Clocked.foldl_after`: what happens to a clock.
* `OwnedBy.trail`: the commands of moves.
* `Machine.startStep_owned`, `Machine.step_owned`: whole macrosteps, of whatever chart.
-/
namespace Statechart

namespace Timer

variable {x y : Timer}

theorem before_iff :
    x.before y = true ↔ x.due < y.due ∨ x.due = y.due ∧ x.number < y.number := by
  simp [before]

theorem due_le_of_before (h : x.before y = true) : x.due ≤ y.due := by
  rw [before_iff] at h; omega

end Timer

namespace Timers

variable {t u : Timers} {limit : Nat} {x : Timer}

/-! ## The timer that goes first -/

theorem first?_eq_none {l : List Timer} : first? l = none ↔ l = [] := by
  cases l with
  | nil => simp [first?]
  | cons x l => unfold first?; split <;> simp

theorem first?_spec : ∀ {l : List Timer} {x : Timer}, first? l = some x →
    x ∈ l ∧ ∀ y ∈ l, ¬ y.before x = true
  | y :: l, x, h => by
    unfold first? at h
    cases hl : first? l with
    | none =>
      rw [hl] at h; cases h
      rw [first?_eq_none.mp hl]
      simp [Timer.before_iff]
    | some z =>
      rw [hl] at h
      obtain ⟨hz, hleast⟩ := first?_spec hl
      simp only [Timer.before_iff, Option.some.injEq, List.mem_cons, forall_eq_or_imp] at h hleast ⊢
      split at h
      · subst h
        exact ⟨.inr hz, by omega, hleast⟩
      · subst h
        refine ⟨.inl rfl, by omega, fun w hw => ?_⟩
        have := hleast w hw
        omega

theorem take?_eq_none : t.take? limit = none ↔ ∀ x ∈ t.pending, limit < x.due := by
  simp [take?, nextDue?, first?_eq_none]

/-- A timer that is taken is due, and no timer goes before it. -/
theorem take?_spec (h : t.take? limit = some (x, u)) :
    x ∈ t.pending ∧ x.due ≤ limit ∧ (∀ y ∈ t.pending, ¬ y.before x = true) ∧
      u = { t with pending := t.pending.erase x, now := max t.now x.due } := by
  obtain ⟨y, hy, he⟩ := Option.map_eq_some_iff.mp h
  cases he
  obtain ⟨hmem, hleast⟩ := first?_spec hy
  obtain ⟨hx, hdue⟩ := List.mem_filter.mp hmem
  have hdue := of_decide_eq_true hdue
  refine ⟨hx, hdue, fun y hy hb => ?_, rfl⟩
  have hle := Timer.due_le_of_before hb
  exact hleast y (List.mem_filter.mpr ⟨hy, decide_eq_true (Nat.le_trans hle hdue)⟩) hb

theorem first?_filter {p : Timer → Bool} : ∀ {l : List Timer} {x : Timer}, first? l = some x →
    p x = true → first? (l.filter p) = some x
  | y :: l, x, h, hx => by
    unfold first? at h
    cases hl : first? l with
    | none =>
      rw [hl] at h; cases h
      rw [first?_eq_none.mp hl]
      simp [hx, first?]
    | some z =>
      rw [hl] at h
      dsimp only [Option.some.injEq] at h
      split at h
      · rename_i hz
        cases h
        -- `x` goes before `y`, whether `y` passes the test or not
        have hrest := first?_filter hl hx
        cases hy : p y <;> simp [hy, hrest, first?, hz]
      · rename_i hz
        cases h
        rw [List.filter_cons_of_pos hx, first?]
        cases hrest : first? (l.filter p) with
        | none => rfl
        | some w =>
          have hw : ¬ w.before y = true := by
            obtain ⟨hmem, -⟩ := first?_spec hrest
            have hnot := (first?_spec hl).2 w (List.mem_filter.mp hmem).1
            rw [Timer.before_iff] at hnot hz ⊢
            omega
          simp [hw]

/-- The timer that fires first by a time is the one that fires first by any later time. -/
theorem take?_of_le {more : Nat} (h : t.take? limit = some (x, u)) (hle : limit ≤ more) :
    t.take? more = some (x, u) := by
  obtain ⟨hx, hdue, hleast, rfl⟩ := take?_spec h
  have hnext : first? (t.pending.filter fun y => y.due ≤ limit) = some x := by
    obtain ⟨y, hy, he⟩ := Option.map_eq_some_iff.mp h
    exact hy.trans (congrArg some (Prod.mk.inj he).1)
  have hmem : x ∈ t.pending.filter fun y => y.due ≤ more :=
    List.mem_filter.mpr ⟨hx, decide_eq_true (Nat.le_trans hdue hle)⟩
  cases hfirst : first? (t.pending.filter fun y => y.due ≤ more) with
  | none => rw [first?_eq_none.mp hfirst] at hmem; exact absurd hmem List.not_mem_nil
  | some y =>
    -- what fires first by the later time is due by the earlier one, so it fires first by that too
    have hnot := (first?_spec hfirst).2 x hmem
    rw [Timer.before_iff] at hnot
    have hearly := first?_filter hfirst (p := fun y => y.due ≤ limit) (decide_eq_true (by omega))
    have hboth : ∀ z : Timer, (decide (z.due ≤ limit) && decide (z.due ≤ more)) =
        decide (z.due ≤ limit) := fun z => by
      rw [Bool.and_eq_left_iff_imp]; simpa using fun hz => Nat.le_trans hz hle
    rw [List.filter_filter, funext hboth, hnext] at hearly
    cases hearly
    exact congrArg (Option.map _) hfirst

/-- Time that passes before the next timer is due makes no difference to that timer. -/
theorem take?_advanceTo {more : Nat} (hn : t.take? limit = none) :
    (t.advanceTo limit).take? more = t.take? more := by
  unfold take? nextDue? advanceTo
  cases hfirst : first? (t.pending.filter fun y => y.due ≤ more) with
  | none => rfl
  | some y =>
    have hdue := take?_eq_none.mp hn y (List.mem_filter.mp (first?_spec hfirst).1).1
    have hnow : max (max t.now limit) y.due = max t.now y.due := by omega
    simp only [Option.map_some, hnow]

/-! ## A clock and what has fired -/

/-- All that has fired was due by now and goes before all that is pending, which is due from now
on. -/
structure Clocked (t : Timers) (gone : List Timer) : Prop where
  ahead : ∀ x ∈ t.pending, t.now ≤ x.due
  numbered : t.pending.Pairwise fun x y => x.number < y.number
  fresh : ∀ x ∈ t.pending, x.number < t.next
  past : ∀ x ∈ gone, x.due ≤ t.now ∧ x.number < t.next
  earlier : ∀ x ∈ gone, ∀ y ∈ t.pending, x.before y = true
  ordered : gone.Pairwise fun x y => x.before y = true

def after (t : Timers) : Command → Timers
  | .schedule owner event delayMs => t.schedule owner event delayMs
  | .cancelTimers owner => t.cancel owner
  | _ => t

@[simp] theorem after_now (t : Timers) (command : Command) : (t.after command).now = t.now := by
  cases command <;> rfl

@[simp] theorem foldl_after_now : ∀ (commands : List Command) (t : Timers),
    (commands.foldl after t).now = t.now
  | [], _ => rfl
  | command :: commands, t => by
    rw [List.foldl_cons, foldl_after_now commands, after_now]

namespace Clocked

variable {gone : List Timer}

theorem sublist (h : t.Clocked gone) {pending : List Timer} (hs : pending.Sublist t.pending) :
    Clocked { t with pending } gone where
  ahead x hx := h.ahead x (hs.subset hx)
  numbered := h.numbered.sublist hs
  fresh x hx := h.fresh x (hs.subset hx)
  past := h.past
  earlier x hx y hy := h.earlier x hx y (hs.subset hy)
  ordered := h.ordered

theorem cancel (h : t.Clocked gone) (owner : Nat) : (t.cancel owner).Clocked gone :=
  h.sublist List.filter_sublist

theorem clear (h : t.Clocked gone) : t.clear.Clocked gone := h.sublist (List.nil_sublist _)

/-- What is scheduled is due from now on, and has the highest number. -/
theorem schedule (h : t.Clocked gone) (owner : Nat) (event : Event) (delayMs : Nat) :
    (t.schedule owner event delayMs).Clocked gone where
  ahead x hx := by
    rcases List.mem_append.mp hx with hx | hx
    · exact h.ahead x hx
    · rw [List.mem_singleton.mp hx]; exact Nat.le_add_right _ _
  numbered := by
    refine List.pairwise_append.mpr ⟨h.numbered, List.pairwise_singleton _ _, fun x hx y hy => ?_⟩
    rw [List.mem_singleton.mp hy]; exact h.fresh x hx
  fresh x hx := by
    rcases List.mem_append.mp hx with hx | hx
    · exact Nat.lt_succ_of_lt (h.fresh x hx)
    · rw [List.mem_singleton.mp hx]; exact Nat.lt_succ_self _
  past x hx := ⟨(h.past x hx).1, Nat.lt_succ_of_lt (h.past x hx).2⟩
  earlier x hx y hy := by
    rcases List.mem_append.mp hy with hy | hy
    · exact h.earlier x hx y hy
    · obtain ⟨hdue, hnumber⟩ := h.past x hx
      rw [List.mem_singleton.mp hy, Timer.before_iff]
      dsimp only
      omega
  ordered := h.ordered

theorem after (h : t.Clocked gone) (command : Command) : (t.after command).Clocked gone := by
  cases command with
  | schedule owner event delayMs => exact h.schedule owner event delayMs
  | cancelTimers owner => exact h.cancel owner
  | _ => exact h

/-- The commands of a macrostep keep the order. -/
theorem foldl_after : ∀ (commands : List Command) {t : Timers}, t.Clocked gone →
    (commands.foldl Timers.after t).Clocked gone
  | [], _, h => h
  | command :: commands, _, h => foldl_after commands (h.after command)

/-- The timer that is taken goes before all others that are pending. -/
theorem before_of_take (h : t.Clocked gone) (ht : t.take? limit = some (x, u)) :
    ∀ y ∈ u.pending, y ∈ t.pending ∧ x.before y = true := by
  obtain ⟨hx, -, hleast, rfl⟩ := take?_spec ht
  have hnumbers : (t.pending.map Timer.number).Nodup :=
    List.pairwise_map.mpr (h.numbered.imp Nat.ne_of_lt)
  intro y hy
  obtain ⟨hne, hy⟩ := hnumbers.of_map.mem_erase_iff.mp hy
  refine ⟨hy, ?_⟩
  -- Two pending timers have different numbers, so one of them goes before the other.
  have hnumber : x.number ≠ y.number := fun e =>
    hne (List.inj_on_of_nodup_map hnumbers hx hy e).symm
  have hnot := hleast y hy
  rw [Timer.before_iff] at hnot ⊢
  omega

/-- A timer that fires goes after all that fired before it and before all that is left, and
the clock then shows the time it was due. -/
theorem take (h : t.Clocked gone) (ht : t.take? limit = some (x, u)) :
    u.Clocked (gone ++ [x]) ∧ u.now = x.due := by
  have hbefore := h.before_of_take ht
  obtain ⟨hx, -, -, rfl⟩ := take?_spec ht
  have hdue := h.ahead x hx
  have hnow : max t.now x.due = x.due := by omega
  have hrest := h.sublist (t.pending.erase_sublist (a := x))
  refine ⟨⟨fun y hy => ?_, hrest.numbered, hrest.fresh, fun y hy => ?_, fun y hy z hz => ?_, ?_⟩,
    hnow⟩
  · dsimp only
    rw [hnow]; exact Timer.due_le_of_before (hbefore y hy).2
  · dsimp only
    rw [hnow]
    rcases List.mem_append.mp hy with hy | hy
    · have := h.past y hy; omega
    · rw [List.mem_singleton.mp hy]; exact ⟨Nat.le_refl _, h.fresh x hx⟩
  · rcases List.mem_append.mp hy with hy | hy
    · exact hrest.earlier y hy z hz
    · rw [List.mem_singleton.mp hy]; exact (hbefore z hz).2
  · refine List.pairwise_append.mpr ⟨h.ordered, List.pairwise_singleton _ _, fun y hy z hz => ?_⟩
    rw [List.mem_singleton.mp hz]; exact h.earlier y hy x hx

/-- The clock may be put forward when no timer is left that is due by then. -/
theorem advanceTo (h : t.Clocked gone) (hn : t.take? limit = none) :
    (t.advanceTo limit).Clocked gone where
  ahead x hx := by
    have := h.ahead x hx
    have := take?_eq_none.mp hn x hx
    simp only [Timers.advanceTo]
    omega
  numbered := h.numbered
  fresh := h.fresh
  past x hx := by
    have := h.past x hx
    simp only [Timers.advanceTo]
    omega
  earlier := h.earlier
  ordered := h.ordered

end Clocked

/-! ## The states that timers belong to -/

/-- Every pending timer belongs to an active state. Only states with delays have timers, and
these lose them when they are left. -/
def OwnedBy (t : Timers) (c : Chart) (configuration : NodeSet) : Prop :=
  ∀ x ∈ t.pending, x.owner ∈ configuration ∧ (c.node x.owner).after ≠ []

namespace OwnedBy

variable {c : Chart} {configuration : NodeSet}

theorem of_nil (h : t.pending = []) : t.OwnedBy c configuration := fun x hx => by
  rw [h] at hx; exact absurd hx List.not_mem_nil

theorem subset (h : t.OwnedBy c configuration) (hs : ∀ x ∈ u.pending, x ∈ t.pending) :
    u.OwnedBy c configuration := fun x hx => h x (hs x hx)

theorem foldl_after_of_eq {α : Type} {f : α → Command} (hf : ∀ a t, after t (f a) = t)
    (l : List α) (t : Timers) : (l.map f).foldl after t = t := by
  induction l with
  | nil => rfl
  | cons a l ih => rw [List.map_cons, List.foldl_cons, hf, ih]

theorem mem_foldl_schedule {n : Nat} : ∀ {l : List Delayed} {t : Timers},
    x ∈ ((l.map fun d => Command.schedule n { type := d.event } d.delayMs).foldl after t).pending →
      x ∈ t.pending ∨ x.owner = n ∧ l ≠ []
  | [], _, hx => .inl hx
  | d :: l, t, hx => by
    rcases mem_foldl_schedule (l := l) hx with hx | ⟨hx, -⟩
    · rcases List.mem_append.mp hx with hx | hx
      · exact .inl hx
      · rw [List.mem_singleton.mp hx]; exact .inr ⟨rfl, by simp⟩
    · exact .inr ⟨hx, by simp⟩

theorem enter (h : t.OwnedBy c configuration) (n : Nat) :
    ((Command.onEntry c n).foldl after t).OwnedBy c (configuration.insert n) := by
  intro x hx
  rw [Command.onEntry, List.foldl_append, foldl_after_of_eq fun _ _ => rfl] at hx
  rcases mem_foldl_schedule hx with hx | ⟨rfl, hafter⟩
  · exact ⟨NodeSet.mem_insert.mpr (.inr (h x hx).1), (h x hx).2⟩
  · exact ⟨NodeSet.mem_insert.mpr (.inl rfl), hafter⟩

theorem exit (h : t.OwnedBy c configuration) (n : Nat) :
    ((Command.onExit c n).foldl after t).OwnedBy c (configuration.erase n) := by
  intro x hx
  rw [Command.onExit, List.foldl_append, foldl_after_of_eq fun _ _ => rfl] at hx
  split at hx
  · rename_i hnone
    obtain ⟨hmem, hafter⟩ := h x hx
    exact ⟨NodeSet.mem_erase.mpr ⟨hmem, fun e => hafter (e ▸ List.isEmpty_iff.mp hnone)⟩, hafter⟩
  · obtain ⟨hx, hne⟩ := List.mem_filter.mp hx
    exact ⟨NodeSet.mem_erase.mpr ⟨(h x hx).1, bne_iff_ne.mp hne⟩, (h x hx).2⟩

/-- Timers go with their states, whatever the moves are. -/
theorem trail {moves : List Move} {commands : List Command} (ht : Trail c moves commands)
    (h : t.OwnedBy c configuration) :
    (commands.foldl after t).OwnedBy c (moves.foldl Move.apply configuration) := by
  induction ht generalizing t configuration with
  | nil => exact h
  | send actor event _ ih => exact ih h
  | move m _ ih =>
    rw [List.foldl_cons, List.foldl_append]
    refine ih ?_
    cases m with
    | exit n => exact h.exit n
    | enter n => exact h.enter n

end OwnedBy

end Timers

/-! ## Macrosteps -/

/-- The commands so far give every timer to an active state, if the timers before did. -/
def Execution.Owned {C E : Type} (c : Chart) (t : Timers) (x : Execution C E) : Prop :=
  (x.commands.foldl Timers.after t).OwnedBy c x.configuration

theorem Execution.Moved.owned {C E : Type} {c : Chart} {t : Timers} {moves : List Move}
    {x y : Execution C E} (hm : Moved c moves x y) (h : x.Owned c t) : y.Owned c t := by
  obtain ⟨commands, hc, ht⟩ := hm.commands
  unfold Owned
  rw [hc, List.foldl_append, hm.configuration]
  exact Timers.OwnedBy.trail ht h

namespace Machine

variable {C E A : Type} [BEq C] {m : Machine C E A} {mode : Mode} {step : Macrostep C}
  {t : Timers}

theorem settle_owned {trigger : Event} {x y : Execution C E} (h : x.Owned m.chart t)
    (he : m.settle mode trigger x = .ok y) : y.Owned m.chart t := by
  refine stabilize_invariant (fun x y choice _ _ hx _ ht => ?_) h he
  obtain ⟨entries, -, hm⟩ := Execution.microstep_spec ht
  exact hm.owned hx

/-- A start schedules timers for the states that are active after it. -/
theorem startStep_owned (hs : (m.startStep mode).result = .ok step) (h : t.pending = []) :
    (step.commands.foldl Timers.after t).OwnedBy m.chart step.snapshot.configuration := by
  obtain ⟨x, y, hx, hy, rfl⟩ := startStep_ok hs
  obtain ⟨entries, -, hm⟩ := Execution.enterInitial_spec hx
  have hnone : t.OwnedBy m.chart ∅ := .of_nil h
  exact settle_owned (hm.owned hnone) hy

/-- After a step every timer belongs to an active state, if it was so before. -/
theorem step_owned {s : Snapshot C} {event : Event} (hs : (m.step s event mode).result = .ok step)
    (h : t.OwnedBy m.chart s.configuration) :
    (step.commands.foldl Timers.after t).OwnedBy m.chart step.snapshot.configuration := by
  rcases step_ok hs with rfl | ⟨transitions, x, y, -, hx, hy, rfl⟩
  · exact h
  · obtain ⟨entries, -, hm⟩ := Execution.microstep_spec hx
    exact settle_owned (hm.owned h) hy

end Machine

end Statechart
