import Statechart.Proofs.Configuration.Memory
import Statechart.Proofs.Macrostep.Phases

/-!
# Final configurations and their announcements

A state is in a final configuration if it is final, if it is compound and its active child is
final, or if it is parallel and each of its regions is in a final configuration (`Completed`).
Entering more states never undoes this. The states that are announced while a row of phases is
run (`completions`) are those that entered final states announce, each in the configuration that
it finds.

* `isComplete_iff`: looking down finds out whether a state is in a final configuration.
* `Completed.mono`: more active states complete no fewer.
* `mem_announced`: what one final state announces.
* `Plain`: the parallel states that are announced through compound regions only.
* `mem_completions`: what a row of phases announces.
-/
namespace Statechart

namespace Chart

variable {c : Chart} {s t : NodeSet} {n f r : Nat}

/-- The state is in a final configuration. -/
inductive Completed (c : Chart) (configuration : NodeSet) : Nat → Prop
  | final {n : Nat} (h : (c.node n).isFinal = true) : Completed c configuration n
  | compound {n k : Nat} (h : (c.node n).isCompound = true)
      (hk : k ∈ c.activeChildren n configuration) (hf : (c.node k).isFinal = true) :
      Completed c configuration n
  | parallel {n : Nat} (h : (c.node n).isParallel = true)
      (hr : ∀ r ∈ c.regions n, Completed c configuration r) : Completed c configuration n

namespace Completed

theorem of_isCompleteWithin : ∀ {levels n : Nat}, c.isCompleteWithin s levels n = true →
    c.Completed s n := by
  intro levels
  induction levels with
  | zero => intro n h; cases h
  | succ levels ih =>
    intro n h
    rw [isCompleteWithin] at h
    split at h
    · rename_i hk; exact .final (by simp [Node.isFinal, hk])
    · rename_i hk
      obtain ⟨k, hmem, hf⟩ := List.any_eq_true.mp h
      exact .compound (by simp [Node.isCompound, hk]) hmem hf
    · rename_i hk
      exact .parallel (by simp [Node.isParallel, hk]) fun r hr => ih (List.all_eq_true.mp h r hr)
    · cases h
    · cases h

/-- There are not more levels below a state than states after it. -/
theorem isCompleteWithin (h : c.IsTree) (hn : c.Completed s n) :
    ∀ {levels : Nat}, c.size - n < levels → c.isCompleteWithin s levels n = true := by
  induction hn with
  | @final n hf =>
    intro levels hl
    obtain ⟨levels, rfl⟩ : ∃ k, levels = k + 1 := ⟨levels - 1, by omega⟩
    rw [Chart.isCompleteWithin, beq_iff_eq.mp hf]
  | @compound n k hcomp hk hf =>
    intro levels hl
    obtain ⟨levels, rfl⟩ : ∃ k, levels = k + 1 := ⟨levels - 1, by omega⟩
    rw [Chart.isCompleteWithin, beq_iff_eq.mp hcomp]
    exact List.any_eq_true.mpr ⟨k, hk, hf⟩
  | @parallel n hpar _ ih =>
    intro levels hl
    obtain ⟨levels, rfl⟩ : ∃ k, levels = k + 1 := ⟨levels - 1, by omega⟩
    rw [Chart.isCompleteWithin, beq_iff_eq.mp hpar]
    refine List.all_eq_true.mpr fun r hr => ih r hr ?_
    have hrn := ((mem_regions h).mp hr).1
    have := h.parent_lt hrn
    have := lt_size_of_parent hrn
    omega

/-- More active states complete no fewer. -/
theorem mono (hst : ∀ k ∈ s, k ∈ t) (hn : c.Completed s n) : c.Completed t n := by
  induction hn with
  | final hf => exact .final hf
  | @compound n k hcomp hk hf =>
    refine .compound hcomp (List.mem_filter.mpr ?_) hf
    obtain ⟨hmem, hactive⟩ := List.mem_filter.mp hk
    exact ⟨hmem, decide_eq_true (hst k (of_decide_eq_true hactive))⟩
  | parallel hpar _ ih => exact .parallel hpar ih

theorem of_compound (hcomp : (c.node n).isCompound = true) (hn : c.Completed s n) :
    ∃ k ∈ c.activeChildren n s, (c.node k).isFinal = true := by
  have hkind := beq_iff_eq.mp hcomp
  cases hn with
  | final hf => rw [beq_iff_eq.mp hf] at hkind; cases hkind
  | compound _ hk hf => exact ⟨_, hk, hf⟩
  | parallel hpar => rw [beq_iff_eq.mp hpar] at hkind; cases hkind

theorem of_parallel (hpar : (c.node n).isParallel = true) (hn : c.Completed s n) :
    ∀ r ∈ c.regions n, c.Completed s r := by
  have hkind := beq_iff_eq.mp hpar
  cases hn with
  | final hf => rw [beq_iff_eq.mp hf] at hkind; cases hkind
  | compound hcomp => rw [beq_iff_eq.mp hcomp] at hkind; cases hkind
  | parallel _ hr => exact hr

theorem isCompound (hn : c.Completed s n) (hfinal : (c.node n).isFinal = false)
    (hpar : (c.node n).isParallel = false) : (c.node n).isCompound = true := by
  cases hn with
  | final hf => rw [hfinal] at hf; cases hf
  | compound hcomp => exact hcomp
  | parallel hp => rw [hpar] at hp; cases hp

end Completed

/-- Looking down finds out whether a state is in a final configuration. -/
theorem isComplete_iff (h : c.IsTree) : c.isComplete s n = true ↔ c.Completed s n :=
  ⟨.of_isCompleteWithin, fun hn => hn.isCompleteWithin h (by omega)⟩

theorem isFinal_of_completes (hbefore : ¬ c.Completed s n) (hn : c.Completed (s.insert f) n) :
    (c.node f).isFinal = true := by
  induction hn with
  | final hf => exact absurd (.final hf) hbefore
  | @compound n k hcomp hk hf =>
    obtain ⟨hmem, hactive⟩ := List.mem_filter.mp hk
    rcases NodeSet.mem_insert.mp (of_decide_eq_true hactive) with rfl | hactive
    · exact hf
    · exact absurd (.compound hcomp (List.mem_filter.mpr ⟨hmem, decide_eq_true hactive⟩) hf) hbefore
  | @parallel n hpar _ ih =>
    by_contra hf
    exact hbefore (.parallel hpar fun r hr => by
      by_contra hr'
      exact hf (ih r hr hr'))

theorem parent_of_completes (h : c.IsTree) (hcomp : (c.node n).isCompound = true)
    (hbefore : ¬ c.Completed s n) (hn : c.Completed (s.insert f) n) :
    (c.node f).parent = some n := by
  obtain ⟨k, hk, hf⟩ := hn.of_compound hcomp
  obtain ⟨hkn, hactive⟩ := (mem_activeChildren h).mp hk
  rcases NodeSet.mem_insert.mp hactive with rfl | hactive
  · exact hkn
  · exact absurd (.compound hcomp ((mem_activeChildren h).mpr ⟨hkn, hactive⟩) hf) hbefore

/-! ## What a final state announces -/

/-- An entered final state announces its parent, and a parallel grandparent that is in a final
configuration by then. The root is not announced. -/
theorem mem_announced (h : c.IsTree) : n ∈ c.announced s f ↔ n ≠ root ∧
    ((c.node f).parent = some n ∨ ∃ p, (c.node f).parent = some p ∧ (c.node p).parent = some n ∧
      (c.node n).isParallel = true ∧ c.Completed s n) := by
  unfold announced
  cases hp : (c.node f).parent with
  | none => simp
  | some p =>
    simp only [Option.some.injEq, exists_eq_left']
    by_cases hroot : p = root
    · rw [if_pos hroot, hroot, h.parent_root]
      simp only [List.not_mem_nil, reduceCtorEq, false_and, or_false, false_iff, not_and]
      exact fun hn e => hn e.symm
    · rw [if_neg hroot, List.mem_cons]
      cases hg : (c.node p).parent with
      | none =>
        simp only [List.not_mem_nil, reduceCtorEq, false_and, or_false]
        exact ⟨fun e => ⟨e ▸ hroot, e.symm⟩, fun hn => hn.2.symm⟩
      | some g =>
        simp only [Option.some.injEq]
        constructor
        · rintro (rfl | hn)
          · exact ⟨hroot, .inl rfl⟩
          · split at hn
            · rename_i hall
              rw [List.mem_singleton] at hn
              subst hn
              exact ⟨hall.1, .inr ⟨rfl, hall.2.1, (isComplete_iff h).mp hall.2.2⟩⟩
            · exact absurd hn List.not_mem_nil
        · rintro ⟨hn, rfl | ⟨rfl, hpar, hcompleted⟩⟩
          · exact .inl rfl
          · rw [if_pos ⟨hn, hpar, (isComplete_iff h).mpr hcompleted⟩]
            exact .inr (List.mem_singleton.mpr rfl)

theorem announced_nodup (h : c.IsTree) (s : NodeSet) (f : Nat) : (c.announced s f).Nodup := by
  unfold announced
  split
  · exact .nil
  · split
    · exact .nil
    · rename_i p _ _
      refine List.nodup_cons.mpr ⟨?_, ?_⟩
      · -- the grandparent is declared before the parent
        split
        · exact List.not_mem_nil
        · rename_i g hg
          have hlt := h.parent_lt hg
          split
          · rw [List.mem_singleton]; omega
          · exact List.not_mem_nil
      · split
        · exact .nil
        · split
          · exact List.nodup_singleton _
          · exact .nil

/-- The final states that announce a parallel state are children of its regions, and these regions
are compound. -/
def Plain (c : Chart) (n : Nat) : Prop :=
  ∀ f, (c.node f).isFinal = true → (c.node f).parent ≠ some n ∧
    ∀ r, (c.node f).parent = some r → (c.node r).parent = some n → (c.node r).isCompound = true

/-- What announces a plain parallel state is a child of a compound region. -/
theorem Plain.announcer (h : c.IsTree) (hplain : c.Plain n) (hfinal : (c.node f).isFinal = true)
    (hn : n ∈ c.announced s f) : ∃ r, (c.node f).parent = some r ∧ (c.node r).parent = some n ∧
      (c.node r).isCompound = true ∧ c.Completed s n := by
  obtain ⟨hparent, hregion⟩ := hplain f hfinal
  obtain ⟨-, hf | ⟨r, hfr, hrn, -, hcompleted⟩⟩ := (mem_announced h).mp hn
  · exact absurd hf hparent
  · exact ⟨r, hfr, hrn, hregion r hfr hrn, hcompleted⟩

theorem plain_of_compound {names : Names} (h : c.Accepted names)
    (hregions : ∀ r ∈ c.regions n, (c.node r).isCompound = true) : c.Plain n := by
  intro f hfinal
  constructor
  · intro hf
    have hcomp := hregions f ((mem_regions h.toIsTree).mpr ⟨hf, Node.not_history (.inl hfinal)⟩)
    have hkind := beq_iff_eq.mp hfinal
    rw [beq_iff_eq.mp hcomp] at hkind
    cases hkind
  · intro r hfr hrn
    rcases inner_of_parent h hfr with hcomp | hpar
    · exact hcomp
    · exact hregions r
        ((mem_regions h.toIsTree).mpr ⟨hrn, Node.not_history (.inr (.inr hpar))⟩)

end Chart

/-! ## What a row of phases announces -/

/-- The state that an event is raised for, if it is raised by a final state. -/
def Raise.completed? : Raise → Option Nat
  | .action _ => none
  | .completed n => some n

/-- The states that phases announce, in their order. -/
def completions (c : Chart) (configuration : NodeSet) (phases : List Phase) : List Nat :=
  (raises c configuration phases).filterMap Raise.completed?

variable {c : Chart} {s : NodeSet} {n f : Nat} {phases more : List Phase}

theorem completions_append : completions c s (phases ++ more) =
    completions c s phases ++ completions c (phases.foldl Phase.apply s) more := by
  unfold completions
  rw [raises_append, List.filterMap_append]

theorem filterMap_completed?_actions (actions : List Action) :
    (((actions.filterMap Action.raised?).map Raise.action).filterMap Raise.completed?) = [] := by
  rw [List.filterMap_map]
  exact List.filterMap_eq_nil_iff.mpr fun _ _ => rfl

theorem completions_enter : completions c s (.enter f :: phases) =
    (if (c.node f).isFinal then c.announced (s.insert f) f else []) ++
      completions c (s.insert f) phases := by
  have hhere : ((Phase.enter f).raises c s).filterMap Raise.completed? =
      if (c.node f).isFinal then c.announced (s.insert f) f else [] := by
    simp only [Phase.raises]
    split
    · rw [List.filterMap_append, filterMap_completed?_actions, List.filterMap_map, List.nil_append]
      exact List.filterMap_some
    · exact filterMap_completed?_actions _
  unfold completions
  rw [raises, List.filterMap_append, hhere]
  rfl

theorem completions_of_no_enter (h : ∀ f, .enter f ∉ phases) : completions c s phases = [] := by
  induction phases generalizing s with
  | nil => rfl
  | cons p phases ih =>
    have hrest : completions c (p.apply s) phases = [] :=
      ih fun f hf => h f (List.mem_cons_of_mem _ hf)
    unfold completions at hrest ⊢
    rw [raises, List.filterMap_append, hrest, List.append_nil]
    cases p with
    | exit k => exact filterMap_completed?_actions _
    | act t => exact filterMap_completed?_actions _
    | enter k => exact absurd List.mem_cons_self (h k)

/-- Whatever is announced is announced by a final state, in the configuration that it finds. -/
theorem mem_completions : n ∈ completions c s phases ↔ ∃ before f after,
    phases = before ++ .enter f :: after ∧ (c.node f).isFinal = true ∧
      n ∈ c.announced ((before.foldl Phase.apply s).insert f) f := by
  constructor
  · induction phases generalizing s with
    | nil => exact fun hn => absurd hn List.not_mem_nil
    | cons p phases ih =>
      intro hn
      have hcons : p :: phases = [p] ++ phases := rfl
      rw [hcons, completions_append, List.mem_append] at hn
      rcases hn with hn | hn
      · cases p with
        | enter f =>
          rw [completions_enter, List.mem_append] at hn
          rcases hn with hn | hn
          · split at hn
            · exact ⟨[], f, phases, rfl, ‹_›, hn⟩
            · exact absurd hn List.not_mem_nil
          · exact absurd hn List.not_mem_nil
        | _ =>
          rw [completions_of_no_enter (by simp)] at hn
          exact absurd hn List.not_mem_nil
      · obtain ⟨before, f, after, rfl, hf, hmem⟩ := ih hn
        exact ⟨p :: before, f, after, rfl, hf, hmem⟩
  · rintro ⟨before, f, after, rfl, hf, hn⟩
    rw [completions_append, completions_enter, if_pos hf]
    exact List.mem_append_right _ (List.mem_append_left _ hn)

end Statechart
