import Mathlib.Data.List.Count
import Statechart.Proofs.Configuration.Moves
import Statechart.Proofs.Session.Resources

/-!
# Resources follow moves

The resources of a session follow a configuration when every timer belongs to an active state
and every invocation of an active state has its one actor (`Follows`). The commands of a move
that fits keep up with it: what is entered had no actor before, what is left had one for each
of its invocations. The root is entered again without being left, so its invocations may have
several actors; it is the only state of which nothing more can be said.

* `Follows.enter`, `Follows.exit`: the two kinds of moves.
* `Follows.trail`: all commands of a macrostep.
-/
namespace Statechart

open Chart

variable {c : Chart} {configuration : NodeSet} {r : Resources}

/-- The timers and actors are those of a configuration. -/
structure Follows (c : Chart) (configuration : NodeSet) (r : Resources) : Prop where
  owner_mem : ∀ n ∈ r.owners, n ∈ configuration
  /-- Leaving a state that has timers takes them away. -/
  owner_after : ∀ n ∈ r.owners, (c.node n).after ≠ []
  one : ∀ n ∈ configuration, n ≠ root → ∀ i ∈ (c.node n).invoke, r.running.count i.id = 1
  active : ∀ id ∈ r.running, ∃ n, (n ∈ configuration ∨ n = root) ∧
    ∃ i ∈ (c.node n).invoke, i.id = id

theorem follows_empty (c : Chart) : Follows c ∅ {} where
  owner_mem _ hn := absurd hn List.not_mem_nil
  owner_after _ hn := absurd hn List.not_mem_nil
  one _ hn := absurd hn NodeSet.mem_empty.mp
  active _ hn := absurd hn List.not_mem_nil

/-! ## The commands of a move -/

namespace Resources

theorem foldl_schedule (n : Nat) : ∀ (l : List Delayed) (r : Resources),
    (l.map fun d => Command.schedule n { type := d.event } d.delayMs).foldl after r =
      { r with owners := r.owners ++ l.map fun _ => n }
  | [], r => by simp
  | d :: l, r => by
    rw [List.map_cons, List.foldl_cons, foldl_schedule n l]
    simp [after]

theorem foldl_invoke (n : Nat) : ∀ (l : List Invocation) (r : Resources),
    (l.map fun i => Command.invoke n i.id i.src).foldl after r =
      { r with running := r.running ++ l.map Invocation.id }
  | [], r => by simp
  | i :: l, r => by
    rw [List.map_cons, List.foldl_cons, foldl_invoke n l]
    simp [after]

theorem foldl_stopActor : ∀ (l : List Invocation) (r : Resources),
    (l.map fun i => Command.stopActor i.id).foldl after r =
      { r with running := r.running.diff (l.map Invocation.id) }
  | [], r => rfl
  | i :: l, r => by
    rw [List.map_cons, List.foldl_cons, foldl_stopActor l, List.map_cons, List.diff_cons]
    rfl

/-- Entering a state adds its timers and actors. -/
theorem foldl_onEntry (c : Chart) (n : Nat) (r : Resources) :
    (Command.onEntry c n).foldl after r =
      { owners := r.owners ++ (c.node n).after.map fun _ => n
        running := r.running ++ (c.node n).invoke.map Invocation.id } := by
  rw [Command.onEntry, List.foldl_append, foldl_schedule, foldl_invoke]

/-- Leaving a state takes its timers and one actor for each of its invocations. -/
theorem foldl_onExit (c : Chart) (n : Nat) (r : Resources) :
    (Command.onExit c n).foldl after r =
      { owners := if (c.node n).after = [] then r.owners else r.owners.filter (· != n)
        running := r.running.diff ((c.node n).invoke.map Invocation.id) } := by
  rw [Command.onExit, List.foldl_append, foldl_stopActor]
  cases (c.node n).after <;> rfl

end Resources

namespace Follows

theorem of_owners (hf : Follows c configuration r) {owners : List Nat}
    (hsub : ∀ n ∈ owners, n ∈ r.owners) : Follows c configuration { r with owners } where
  owner_mem n hn := hf.owner_mem n (hsub n hn)
  owner_after n hn := hf.owner_after n (hsub n hn)
  one := hf.one
  active := hf.active

section Moves

variable {names : Names} (h : c.Accepted names) (hf : Follows c configuration r)
include h hf

theorem count_eq_zero {n : Nat} (hn : n ∉ configuration) (hr : n ≠ root) {i : Invocation}
    (hi : i ∈ (c.node n).invoke) : r.running.count i.id = 0 := by
  refine List.count_eq_zero.mpr fun hm => ?_
  obtain ⟨m, hm, j, hj, he⟩ := hf.active i.id hm
  obtain rfl := (h.invoke_unique hj hi he).1
  exact hm.elim hn hr

omit hf in
theorem id_not_mem {n m : Nat} (hne : n ≠ m) {i : Invocation} (hi : i ∈ (c.node n).invoke) :
    i.id ∉ (c.node m).invoke.map Invocation.id := by
  intro hm
  obtain ⟨j, hj, he⟩ := List.mem_map.mp hm
  exact hne (h.invoke_unique hi hj he.symm).1

omit hf in
theorem count_invoke {n : Nat} {i : Invocation} (hi : i ∈ (c.node n).invoke) :
    ((c.node n).invoke.map Invocation.id).count i.id = 1 :=
  List.count_eq_one_of_mem (h.invoke_nodup n) (List.mem_map_of_mem hi)

/-- The commands of a state that is entered. -/
theorem enter {n : Nat} (hn : n ∉ configuration ∨ n = root) :
    Follows c (configuration.insert n) ((Command.onEntry c n).foldl Resources.after r) := by
  rw [Resources.foldl_onEntry]
  refine ⟨fun m hm => ?_, fun m hm => ?_, fun m hm hmr i hi => ?_, fun id hid => ?_⟩
  · rw [NodeSet.mem_insert]
    rcases List.mem_append.mp hm with hm | hm
    · exact .inr (hf.owner_mem m hm)
    · obtain ⟨-, -, rfl⟩ := List.mem_map.mp hm; exact .inl rfl
  · rcases List.mem_append.mp hm with hm | hm
    · exact hf.owner_after m hm
    · obtain ⟨d, hd, rfl⟩ := List.mem_map.mp hm; exact List.ne_nil_of_mem hd
  · rw [List.count_append]
    by_cases hmn : m = n
    · subst hmn
      rw [hf.count_eq_zero h (hn.resolve_right hmr) hmr hi, count_invoke h hi]
    · have hm := (NodeSet.mem_insert.mp hm).resolve_left hmn
      rw [hf.one m hm hmr i hi, List.count_eq_zero.mpr (id_not_mem h hmn hi)]
  · rcases List.mem_append.mp hid with hid | hid
    · obtain ⟨m, hm, hi⟩ := hf.active id hid
      exact ⟨m, hm.imp_left fun hm => NodeSet.mem_insert.mpr (.inr hm), hi⟩
    · obtain ⟨i, hi, rfl⟩ := List.mem_map.mp hid
      exact ⟨n, .inl (NodeSet.mem_insert.mpr (.inl rfl)), i, hi, rfl⟩

/-- The commands of a state that is left. -/
theorem exit {n : Nat} (hn : n ∈ configuration) (hr : n ≠ root) :
    Follows c (configuration.erase n) ((Command.onExit c n).foldl Resources.after r) := by
  rw [Resources.foldl_onExit]
  have howners : ∀ m ∈ (if (c.node n).after = [] then r.owners else r.owners.filter (· != n)),
      m ∈ r.owners ∧ m ≠ n := by
    intro m hm
    split at hm
    · rename_i ha
      exact ⟨hm, fun e => hf.owner_after m hm (e ▸ ha)⟩
    · exact ⟨(List.mem_filter.mp hm).1, bne_iff_ne.mp (List.mem_filter.mp hm).2⟩
  refine ⟨fun m hm => ?_, fun m hm => hf.owner_after m (howners m hm).1,
    fun m hm hmr i hi => ?_, fun id hid => ?_⟩
  · exact NodeSet.mem_erase.mpr ⟨hf.owner_mem m (howners m hm).1, (howners m hm).2⟩
  · obtain ⟨hm, hmn⟩ := NodeSet.mem_erase.mp hm
    rw [List.count_diff, hf.one m hm hmr i hi, List.count_eq_zero.mpr (id_not_mem h hmn hi)]
  · obtain ⟨m, hm, i, hi, rfl⟩ := hf.active id (List.diff_subset _ _ hid)
    refine ⟨m, hm.imp_left fun hm => NodeSet.mem_erase.mpr ⟨hm, fun e => ?_⟩, i, hi, rfl⟩
    subst e
    have hzero : (r.running.diff ((c.node m).invoke.map Invocation.id)).count i.id = 0 := by
      rw [List.count_diff, hf.one m hm hr i hi, count_invoke h hi]
    exact List.count_eq_zero.mp hzero hid

/-- Resources that follow a configuration follow moves that fit, by their commands. -/
theorem trail {moves : List Move} {commands : List Command} (ht : Trail c moves commands)
    (hm : Move.FitAll configuration moves) :
    Follows c (moves.foldl Move.apply configuration) (commands.foldl Resources.after r) := by
  induction ht generalizing configuration r with
  | nil => exact hf
  | send actor event _ ih => exact ih hf hm
  | move m _ ih =>
    obtain ⟨hfit, hm⟩ := hm
    rw [List.foldl_cons, List.foldl_append]
    refine ih ?_ hm
    cases m with
    | exit n => exact hf.exit h hfit.1 hfit.2
    | enter n => exact hf.enter h hfit

end Moves

end Follows

/-- The commands of a chart start actors of registered sources only. -/
theorem Trail.known {C E A : Type} {registry : Registry C E A} (h : c.Accepted registry.names)
    {moves : List Move} {commands : List Command} (ht : Trail c moves commands) :
    ∀ command ∈ commands, command.Known registry := by
  refine ht.forall_mem (fun _ _ => trivial) (fun n command hm => ?_) fun n command hm => ?_
  · rcases List.mem_append.mp hm with hm | hm
    · obtain ⟨d, -, rfl⟩ := List.mem_map.mp hm; trivial
    · obtain ⟨i, hi, rfl⟩ := List.mem_map.mp hm
      exact h.actor_known hi
  · rcases List.mem_append.mp hm with hm | hm
    · split at hm
      · exact absurd hm List.not_mem_nil
      · rw [List.mem_singleton.mp hm]; trivial
    · obtain ⟨i, -, rfl⟩ := List.mem_map.mp hm; trivial

end Statechart
