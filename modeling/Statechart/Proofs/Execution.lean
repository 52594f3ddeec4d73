import Statechart.Execution
import Statechart.Proofs.Selection

/-!
# What a microstep changes

Actions leave the configuration, the history and the count of microsteps alone and ask at
most for events to be sent to actors. So all that a microstep does to the configuration is a
list of moves, first exits and then entries, and its commands are those of the moves, in
their order, with such sends in between (`Trail`).

* `exitStates_moved`, `enterStates_moved`: the moves of the two halves.
* `microstep_spec`, `enterInitial_spec`: what a microstep that succeeds has done.
-/
namespace Statechart

/-- One state is left or entered. -/
inductive Move where
  | exit (n : Nat)
  | enter (n : Nat)
deriving DecidableEq, Repr

namespace Move

def apply (configuration : NodeSet) : Move → NodeSet
  | .exit n => configuration.erase n
  | .enter n => configuration.insert n

def commands (c : Chart) : Move → List Command
  | .exit n => Command.onExit c n
  | .enter n => Command.onEntry c n

end Move

/-- Commands of a list of moves, in their order, with sends in between. -/
inductive Trail (c : Chart) : List Move → List Command → Prop
  | nil : Trail c [] []
  | send {moves commands} (actor : String) (event : Event) (h : Trail c moves commands) :
      Trail c moves (.sendTo actor event :: commands)
  | move {moves commands} (m : Move) (h : Trail c moves commands) :
      Trail c (m :: moves) (m.commands c ++ commands)

namespace Trail

variable {c : Chart}

theorem append {moves more : List Move} {commands rest : List Command}
    (h : Trail c moves commands) (h' : Trail c more rest) :
    Trail c (moves ++ more) (commands ++ rest) := by
  induction h with
  | nil => exact h'
  | send actor event _ ih => exact .send actor event ih
  | move m _ ih => rw [List.append_assoc]; exact .move m ih

theorem single (m : Move) : Trail c [m] (m.commands c) := by
  have := Trail.move (c := c) m .nil
  rwa [List.append_nil] at this

/-- What holds of every send, and of what entering and leaving a state ask for, holds of all
commands. -/
theorem forall_mem {P : Command → Prop} (send : ∀ actor event, P (.sendTo actor event))
    (enter : ∀ n, ∀ command ∈ Command.onEntry c n, P command)
    (exit : ∀ n, ∀ command ∈ Command.onExit c n, P command) {moves : List Move}
    {commands : List Command} (ht : Trail c moves commands) : ∀ command ∈ commands, P command := by
  induction ht with
  | nil => exact fun _ hm => absurd hm List.not_mem_nil
  | send actor event _ ih => exact List.forall_mem_cons.mpr ⟨send actor event, ih⟩
  | move m _ ih =>
    refine List.forall_mem_append.mpr ⟨?_, ih⟩
    cases m with
    | exit n => exact exit n
    | enter n => exact enter n

end Trail

namespace Execution

variable {C E A : Type} {c : Chart} {r : Registry C E A} {mode : Mode} {event : Event}

/-- `y` comes from `x` by moves and actions. -/
structure Moved (c : Chart) (moves : List Move) (x y : Execution C E) : Prop where
  configuration : y.configuration = moves.foldl Move.apply x.configuration
  history : y.history = x.history
  microsteps : y.microsteps = x.microsteps
  commands : ∃ commands, y.commands = x.commands ++ commands ∧ Trail c moves commands

namespace Moved

variable {moves more : List Move} {x y z : Execution C E}

theorem refl (c : Chart) (x : Execution C E) : Moved c [] x x :=
  ⟨rfl, rfl, rfl, [], by simp, .nil⟩

theorem trans (h : Moved c moves x y) (h' : Moved c more y z) : Moved c (moves ++ more) x z where
  configuration := by rw [List.foldl_append, ← h.configuration, h'.configuration]
  history := h'.history.trans h.history
  microsteps := h'.microsteps.trans h.microsteps
  commands := by
    obtain ⟨cs, hcs, ht⟩ := h.commands
    obtain ⟨ds, hds, ht'⟩ := h'.commands
    exact ⟨cs ++ ds, by rw [hds, hcs, List.append_assoc], ht.append ht'⟩

/-- Going through a list, each element with moves of its own. -/
theorem foldlM {α : Type} {f : Execution C E → α → Attempt E (Execution C E)} {g : α → List Move}
    (hf : ∀ a x y, f x a = .ok y → Moved c (g a) x y) :
    ∀ (l : List α) {x y : Execution C E}, l.foldlM f x = .ok y → Moved c (l.flatMap g) x y
  | [], x, y, h => by cases h; exact .refl c x
  | a :: l, x, y, h => by
    rw [List.foldlM_cons, bind_ok] at h
    obtain ⟨t, ht, h⟩ := h
    exact (hf a x t ht).trans (foldlM hf l h)

end Moved

/-- The commands so far are those of moves. -/
def Moving (c : Chart) (x : Execution C E) : Prop := ∃ moves, Trail c moves x.commands

theorem Moved.moving {moves : List Move} {x y : Execution C E} (h : Moved c moves x y)
    (hx : x.Moving c) : y.Moving c := by
  obtain ⟨commands, hc, ht⟩ := h.commands
  obtain ⟨before, hb⟩ := hx
  exact ⟨before ++ moves, hc ▸ hb.append ht⟩

/-! ## Actions -/

variable {x y : Execution C E}

theorem runNamed_moved {name : String} (h : runNamed r mode event x name = .ok y) :
    Moved c [] x y := by
  unfold runNamed at h
  split at h
  · cases h
  · split at h
    · cases h; exact ⟨rfl, rfl, rfl, [], by simp, .nil⟩
    · cases h
  · split at h
    · cases h; exact .refl c x
    · split at h
      · cases h; exact ⟨rfl, rfl, rfl, [], by simp, .nil⟩
      · cases h

theorem runAction_moved {action : Action} (h : runAction r mode event x action = .ok y) :
    Moved c [] x y := by
  cases action with
  | named name =>
    obtain ⟨h1, h2, h3, h4⟩ := runNamed_moved (c := c) h
    exact ⟨h1, h2, h3, h4⟩
  | raise raised => cases h; exact ⟨rfl, rfl, rfl, [], by simp [raise], .nil⟩
  | sendTo actor sent => cases h; exact ⟨rfl, rfl, rfl, _, rfl, .send actor sent .nil⟩

theorem runActions_moved {actions : List Action} (h : runActions r mode event x actions = .ok y) :
    Moved c [] x y := by
  have := Moved.foldlM (c := c) (g := fun _ => []) (fun _ _ _ he => runAction_moved he) actions h
  rwa [List.flatMap_eq_nil_iff.mpr fun _ _ => rfl] at this

/-! ## Exits and entries -/

theorem exitState_moved {n : Nat} (h : exitState c r mode event x n = .ok y) :
    Moved c [.exit n] x y := by
  simp only [exitState, bind_ok, pure_ok] at h
  obtain ⟨t, ht, rfl⟩ := h
  refine (runActions_moved (c := c) ht).trans ⟨rfl, rfl, rfl, Command.onExit c n, rfl, ?_⟩
  exact .single (.exit n)

theorem exitStates_moved {exits : NodeSet} (h : exitStates c r mode event exits x = .ok y) :
    Moved c (exits.toList.reverse.map .exit) x y := by
  rw [List.map_eq_flatMap]
  exact Moved.foldlM (fun _ _ _ he => exitState_moved he) _ h

theorem raiseCompletion_moved (n : Nat) (x : Execution C E) :
    Moved c [] x (raiseCompletion c n x) := by
  have raised : ∀ (x : Execution C E) e, Moved c [] x (x.raise e) := fun x e =>
    ⟨rfl, rfl, rfl, [], by simp [raise], .nil⟩
  unfold raiseCompletion
  split
  · exact .refl c x
  · split
    · exact .refl c x
    · dsimp only
      split
      · exact raised _ _
      · split
        · exact (raised _ _).trans (raised _ _)
        · exact raised _ _

theorem enterState_moved {n : Nat} (h : enterState c r mode event x n = .ok y) :
    Moved c [.enter n] x y := by
  simp only [enterState, bind_ok, pure_ok] at h
  obtain ⟨t, ht, rfl⟩ := h
  have first : Moved c [.enter n] x
      (({ x with configuration := x.configuration.insert n }).request (Command.onEntry c n)) :=
    ⟨rfl, rfl, rfl, Command.onEntry c n, rfl, .single (.enter n)⟩
  have second := first.trans (runActions_moved (c := c) ht)
  split
  · exact second.trans (raiseCompletion_moved n t)
  · exact second

theorem enterStates_moved {entries : NodeSet} (h : enterStates c r mode event entries x = .ok y) :
    Moved c (entries.toList.map .enter) x y := by
  rw [List.map_eq_flatMap]
  exact Moved.foldlM (fun _ _ _ he => enterState_moved he) _ h

/-! ## Microsteps -/

def moves (exits entries : NodeSet) : List Move :=
  exits.toList.reverse.map .exit ++ entries.toList.map .enter

theorem mem_foldl_exit {l : List Nat} {s : NodeSet} {n : Nat} :
    n ∈ (l.map Move.exit).foldl Move.apply s ↔ n ∈ s ∧ n ∉ l := by
  induction l generalizing s with
  | nil => simp
  | cons a l ih =>
    rw [List.map_cons, List.foldl_cons, ih, Move.apply, NodeSet.mem_erase, List.mem_cons, not_or,
      and_assoc]

theorem mem_foldl_enter {l : List Nat} {s : NodeSet} {n : Nat} :
    n ∈ (l.map Move.enter).foldl Move.apply s ↔ n ∈ s ∨ n ∈ l := by
  induction l generalizing s with
  | nil => simp
  | cons a l ih =>
    rw [List.map_cons, List.foldl_cons, ih, Move.apply, NodeSet.mem_insert, List.mem_cons, or_assoc,
      or_left_comm]

theorem mem_foldl_moves {exits entries s : NodeSet} {n : Nat} :
    n ∈ (moves exits entries).foldl Move.apply s ↔ n ∈ s ∧ n ∉ exits ∨ n ∈ entries := by
  unfold moves
  rw [List.foldl_append, mem_foldl_enter, mem_foldl_exit, List.mem_reverse]
  exact Iff.rfl

theorem enterSet_moved {set : Option NodeSet} (h : enterSet c r mode event set x = .ok y) :
    ∃ entries, set = some entries ∧ Moved c (entries.toList.map .enter) x y := by
  unfold enterSet at h
  split at h
  · cases h
  · exact ⟨_, rfl, enterStates_moved h⟩

/-- A microstep that succeeds has an entry set, and has made its exits and entries from where
the history was noted. -/
theorem microstep_spec {transitions : List Nat}
    (h : microstep c r mode transitions event x = .ok y) :
    ∃ entries,
      c.entrySet (recordHistory c (c.exitSet x.configuration transitions) x).history transitions
        = some entries ∧
      Moved c (moves (c.exitSet x.configuration transitions) entries)
        { recordHistory c (c.exitSet x.configuration transitions) x with
          microsteps := x.microsteps + 1 } y := by
  simp only [microstep, bind_ok] at h
  obtain ⟨t, ht, u, hu, h⟩ := h
  have first := exitStates_moved ht
  have second := Moved.foldlM (c := c) (g := fun _ => [])
    (fun _ _ _ he => runActions_moved he) transitions hu
  rw [List.flatMap_eq_nil_iff.mpr fun _ _ => rfl] at second
  obtain ⟨entries, he, third⟩ := enterSet_moved h
  have both := first.trans second
  rw [List.append_nil] at both
  refine ⟨entries, ?_, both.trans third⟩
  rw [← he, both.history]; rfl

theorem enterInitial_spec (h : enterInitial c r mode event x = .ok y) :
    ∃ entries, c.initialEntrySet = some entries ∧
      Moved c (entries.toList.map .enter) { x with microsteps := x.microsteps + 1 } y :=
  enterSet_moved h

end Execution

end Statechart
