import Statechart.Journal

/-!
# A limited journal keeps the newest steps

Pushing a step puts it behind the others and drops as many of the oldest as are too many, so that
of everything pushed the newest are left, however long the journal was to begin with: one that was
read from a text may have more steps than its limit, and the first push cuts it down. With limit
zero a push does nothing at all. A journal that began empty is then empty and stays so, but one
that was read with steps keeps them.

* `Journal.newest`: the end of a list, as long as a limit allows.
* `Journal.push_of_ne_zero`, `Journal.push_newest`: one step.
* `Journal.pushAll_newest_iff`: any steps, and when the newest are kept.
-/
namespace Statechart

namespace Journal

variable {α : Type} {j : Journal} {limit : Option Nat}

/-! ## The newest of a list -/

/-- The newest of a list, as many as a limit says. -/
def newest {α : Type} (limit : Option Nat) (all : List α) : List α :=
  match limit with
  | none => all
  | some n => all.drop (all.length - n)

@[simp] theorem newest_zero (all : List α) : newest (some 0) all = [] := by
  simp [newest]

/-- What is dropped early would be dropped later. -/
theorem newest_append (limit : Option Nat) (all more : List α) :
    newest limit (newest limit all ++ more) = newest limit (all ++ more) := by
  cases limit with
  | none => rfl
  | some n =>
    have hdrop : all.drop (all.length - n) ++ more = (all ++ more).drop (all.length - n) :=
      (List.drop_append_of_le_length (Nat.sub_le _ _)).symm
    simp only [newest, hdrop, List.drop_drop, List.length_drop, List.length_append]
    congr 1
    omega

/-! ## Pushing steps -/

theorem push_limit (j : Journal) (step : StepRecord) : (j.push step).limit = j.limit := by
  unfold push
  split <;> rfl

theorem push_of_zero (h : j.limit = some 0) (step : StepRecord) : j.push step = j := by
  rw [push, h]

/-- One step more: unless the limit is zero, the newest of the steps are kept, the pushed one
with them. The journal may be longer than its limit. -/
theorem push_of_ne_zero (h : j.limit ≠ some 0) (step : StepRecord) :
    j.push step = { steps := newest j.limit (j.steps ++ [step]), limit := j.limit } := by
  unfold push
  split
  · rename_i hlimit
    rw [hlimit, newest]
  · exact absurd ‹_› h
  · rename_i n hlimit
    rw [hlimit, newest, List.length_append, List.length_singleton, Nat.add_sub_add_right,
      List.drop_append_of_le_length (Nat.sub_le _ _)]

/-- A journal that has the newest steps has them after one more, with limit zero too. -/
theorem push_newest (limit : Option Nat) (all : List StepRecord) (record : StepRecord) :
    Journal.push { steps := newest limit all, limit } record =
      { steps := newest limit (all ++ [record]), limit } := by
  by_cases hzero : limit = some 0
  · subst hzero
    simp [push_of_zero]
  · rw [push_of_ne_zero hzero, newest_append]

/-- The journal after steps are pushed one by one. Recording a step gives a new journal with the
step pushed, so this is also the journal after steps are recorded. -/
def pushAll (j : Journal) (steps : List StepRecord) : Journal := steps.foldl push j

theorem pushAll_of_zero (h : j.limit = some 0) (steps : List StepRecord) :
    j.pushAll steps = j := by
  induction steps with
  | nil => rfl
  | cons step rest ih => rw [pushAll, List.foldl_cons, push_of_zero h]; exact ih

/-- Any steps more, at least one: the first push already cuts the journal down to its limit,
and from then on it has the newest of all steps. -/
theorem pushAll_of_ne_zero (h : j.limit ≠ some 0) (step : StepRecord) (rest : List StepRecord) :
    j.pushAll (step :: rest) =
      { steps := newest j.limit (j.steps ++ step :: rest), limit := j.limit } := by
  induction rest generalizing j step with
  | nil => exact push_of_ne_zero h step
  | cons next rest ih =>
    let cut : Journal := { steps := newest j.limit (j.steps ++ [step]), limit := j.limit }
    calc j.pushAll (step :: next :: rest)
        = cut.pushAll (next :: rest) := by
          rw [pushAll, List.foldl_cons, ← pushAll, push_of_ne_zero h]
      _ = { steps := newest j.limit (cut.steps ++ next :: rest), limit := j.limit } :=
          ih (j := cut) h next
      _ = { steps := newest j.limit (j.steps ++ step :: next :: rest), limit := j.limit } := by
          rw [newest_append, List.append_assoc, List.singleton_append]

/-- What a journal keeps of its own steps and those that are pushed. For every journal,
however many steps and whatever limit it has, and any steps, at least one:

* the limit stays;
* the newest are kept, the oldest first, unless the limit is zero and the journal has steps;
* with limit zero the journal stays as it is. -/
theorem pushAll_newest_iff (j : Journal) {steps : List StepRecord} (hsteps : steps ≠ []) :
    (j.pushAll steps).limit = j.limit ∧
    ((j.pushAll steps).steps = newest j.limit (j.steps ++ steps) ↔
      (j.limit = some 0 → j.steps = [])) ∧
    (j.limit = some 0 → (j.pushAll steps).steps = j.steps) := by
  by_cases hzero : j.limit = some 0
  · rw [pushAll_of_zero hzero, hzero, newest_zero]
    exact ⟨rfl, ⟨fun h _ => h, fun h => h rfl⟩, fun _ => rfl⟩
  · obtain ⟨step, rest, rfl⟩ := List.exists_cons_of_ne_nil hsteps
    rw [pushAll_of_ne_zero hzero]
    exact ⟨rfl, ⟨fun _ h => absurd h hzero, fun _ => rfl⟩, fun h => absurd h hzero⟩

/-! ## Journals beyond their limit -/

def lit : StepRecord := ⟨"ON", .leaf "off", .leaf "on", .epoch, 1⟩

def unlit : StepRecord := ⟨"OFF", .leaf "on", .leaf "off", .epoch, 1⟩

/-- Three steps with limit two, as no pushes make them but a text may say. The first push drops
two of them, the second the last one. -/
theorem pushAll_newest_iff_overlong : ∃ j : Journal, j.limit = some 2 ∧
    j.steps = [lit, unlit, lit] ∧ (j.pushAll [unlit]).steps = [lit, unlit] ∧
    (j.pushAll [unlit, lit]).steps = [unlit, lit] ∧
    (j.pushAll [unlit, lit]).limit = j.limit ∧
    ((j.pushAll [unlit, lit]).steps = newest j.limit (j.steps ++ [unlit, lit]) ↔
      (j.limit = some 0 → j.steps = [])) ∧
    (j.limit = some 0 → (j.pushAll [unlit, lit]).steps = j.steps) :=
  ⟨{ steps := [lit, unlit, lit], limit := some 2 }, rfl, rfl, rfl, rfl,
    pushAll_newest_iff _ (List.cons_ne_nil _ _)⟩

/-- A journal of one step with limit zero. -/
def muted : String :=
  "\x7b\"steps\":[" ++
    "\x7b\"event\":\"ON\",\"from\":\"off\",\"to\":\"on\"," ++
      "\"timestamp\":\"1970-01-01T00:00:00Z\",\"microsteps\":1\x7d" ++
  "],\"limit\":0\x7d"

/-- A journal that keeps nothing keeps the step it was read with, and not the newest none. -/
theorem muted_keeps_oldest : ∃ j, ofText? muted = some j ∧ j.limit = some 0 ∧
    (j.pushAll [unlit]).steps = [lit] ∧ newest j.limit (j.steps ++ [unlit]) = [] :=
  ⟨{ steps := [lit], limit := some 0 }, by decide +kernel, rfl, rfl, rfl⟩

end Journal

end Statechart
