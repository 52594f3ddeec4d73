import Statechart.Proofs.Entry.Seeds
import Statechart.Proofs.Macrostep.Course

/-!
# Entries that split no compound state

A compound state is split by a set that has two of its children. Nothing holds the targets of a
transition against each other, neither when a machine is built nor when the transition is taken:
each target brings in its own inside and the states on the way to it. Whether that splits a state
is decided by the targets alone.

* `Exchange.unsplit`: orthogonal targets split nothing.
* `Unnested.not_unsplit`: targets that are neither orthogonal nor one inside the other always split
  a state.
* `Machine.unsplit_iff_aimsApart`: both, for the transitions that are selected in a configuration.

Runs that take only transitions with orthogonal targets keep to such configurations
(`Machine.Course.sound_of_aimsApart`).

Of two targets one inside the other, the outer one brings in its defaults without regard to an
inner one that comes later (`Machine.stage_split`).
-/
namespace Statechart

namespace Chart

variable {c : Chart} {history : Dict (List Nat)}

/-- No compound state has two children in the set. -/
def Unsplit (c : Chart) (s : NodeSet) : Prop :=
  ∀ n, (c.node n).isCompound = true → ∀ k ∈ s, ∀ l ∈ s,
    (c.node k).parent = some n → (c.node l).parent = some n → k = l

/-- Neither state contains the other. A history state is counted as its parent. -/
def Unnested (c : Chart) (m n : Nat) : Prop :=
  ¬ c.Within (c.anchor m) (c.anchor n) ∧ ¬ c.Within (c.anchor n) (c.anchor m)

instance (m n : Nat) : Decidable (c.Unnested m n) := inferInstanceAs (Decidable (_ ∧ _))

theorem unsplit_iff {s : NodeSet} : c.Unsplit s ↔ ∀ k ∈ s.toList, ∀ l ∈ s.toList,
    ((c.node k).parent.any fun n => (c.node n).isCompound && (c.node l).parent == some n) = true →
      k = l := by
  simp only [Unsplit, Option.any_eq_true, Bool.and_eq_true, beq_iff_eq, NodeSet.mem_def]
  constructor
  · rintro h k hk l hl ⟨n, hkn, hn, hln⟩
    exact h n hn k hk l hl hkn hln
  · exact fun h n hn k hk l hl hkn hln => h k hk l hl ⟨n, hkn, hn, hln⟩

instance (s : NodeSet) : Decidable (c.Unsplit s) := decidable_of_iff _ unsplit_iff.symm

/-- Entries that fill the domains split nothing. -/
theorem Exchange.unsplit (h : c.IsTree) {configuration entries next : NodeSet}
    {transitions : List Nat} (hx : c.Exchange configuration transitions entries next) :
    c.Unsplit entries := by
  intro n hn k hk l hl hkn hln
  obtain ⟨t, ht, d, hd, hkd | ⟨rfl, -⟩⟩ := hx.entered k hk
  · have hnd : c.Within n d := (h.isDescendant_iff_parent hkn).mp hkd
    have hld : c.isDescendant l d = true := (h.isDescendant_iff_parent hln).mpr hnd
    exact ((hx.filled t ht d hd).together k hk l hl hkd hld).child_eq h hn hkn hln
  · rw [h.parent_root] at hkn; cases hkn

section Split

variable {names : Names} (h : c.Accepted names)
include h

/-- Two states that are neither orthogonal nor one inside the other are in different children of a
compound state, the least one around both. -/
theorem Unnested.exists_children {m n : Nat} (hu : c.Unnested m n) (ho : ¬ c.Orthogonal m n)
    (hm : m < c.size) (hn : n < c.size) : ∃ x k l, (c.node x).isCompound = true ∧
      (c.node k).parent = some x ∧ (c.node l).parent = some x ∧ k ≠ l ∧
      c.Within (c.anchor m) k ∧ c.Within (c.anchor n) l ∧
      x = c.leastCommon (c.anchor m) (c.anchor n) := by
  obtain ⟨hmx, hnx, hleast⟩ := leastCommon_spec h.toIsTree (anchor_lt h hm) (anchor_lt h hn)
  have hpar : ¬ (c.node (c.leastCommon (c.anchor m) (c.anchor n))).isParallel = true :=
    fun hp => ho ⟨hu.1, hu.2, hp⟩
  generalize hx : c.leastCommon (c.anchor m) (c.anchor n) = x at hmx hnx hleast hpar
  have hmx' : c.isDescendant (c.anchor m) x = true := hmx.elim (fun e => absurd (e ▸ hnx) hu.2) id
  have hnx' : c.isDescendant (c.anchor n) x = true := hnx.elim (fun e => absurd (e ▸ hmx) hu.1) id
  have hcomp : (c.node x).isCompound = true := by
    have hhist : (c.node x).isHistory = false :=
      Bool.eq_false_iff.mpr fun hh => h.not_isDescendant_history hh hmx'
    rcases Node.kind_cases hhist with hleaf | hcomp | hp
    · exact absurd hmx' (h.not_isDescendant_leaf hleaf)
    · exact hcomp
    · exact absurd hp hpar
  obtain ⟨k, hk, hmk⟩ := h.exists_child hmx'
  obtain ⟨l, hl, hnl⟩ := h.exists_child hnx'
  refine ⟨x, k, l, hcomp, hk, hl, ?_, hmk, hnl, rfl⟩
  rintro rfl
  -- A child with both inside would contain the least state around both.
  exact not_isDescendant_self
    (h.within_isDescendant (hleast k hmk hnl) (h.isDescendant_of_parent hk))

variable (we : c.Enterable) (hr : c.Restorable history)
include we hr

/-- The entry set of a transition has the states below the domain that are around a target. -/
theorem mem_entrySet_of_around {transitions : List Nat} {entries : NodeSet}
    (he : c.entrySet history transitions = some entries) {t d n x : Nat} (ht : t ∈ transitions)
    (hd : c.domain t = some d) (hn : n ∈ (c.transition t).targets)
    (hx : c.Within (c.anchor n) x) (hxd : c.isDescendant x d = true) : x ∈ entries := by
  obtain ⟨q, hq, hqn⟩ := exists_effectiveTarget h hr n
  have hqx : c.Within q x := h.within_trans hqn hx
  have hqd : c.isDescendant q d = true := h.within_isDescendant hqx hxd
  refine (entrySet_led h we hr he).1 t ht d hd q (mem_seeds.mpr ⟨n, hn, hq⟩) x ?_
  rcases hqx with rfl | hqx
  · exact List.mem_cons_self
  · exact List.mem_cons_of_mem _ ((mem_ancestorsUntil h.toIsTree hqd).mpr ⟨hqx, hxd⟩)

/-- Two targets that are neither orthogonal nor one inside the other split a compound state. -/
theorem Unnested.not_unsplit {transitions : List Nat} {entries : NodeSet}
    (he : c.entrySet history transitions = some entries) {t m n : Nat} (ht : t ∈ transitions)
    (hs : (c.transition t).source < c.size) (hm : m ∈ (c.transition t).targets)
    (hn : n ∈ (c.transition t).targets) (hu : c.Unnested m n) (ho : ¬ c.Orthogonal m n) :
    ¬ c.Unsplit entries := by
  intro hunsplit
  have hmlt := h.target_lt hm
  have hnlt := h.target_lt hn
  obtain ⟨x, k, l, hx, hk, hl, hkl, hmk, hnl, hleast⟩ := hu.exists_children h ho hmlt hnlt
  obtain ⟨q, hq, -⟩ := exists_effectiveTarget h hr m
  obtain ⟨d, hd⟩ := exists_domain_of_seed (mem_seeds.mpr ⟨m, hm, hq⟩)
  obtain ⟨-, -, htargets⟩ := domain_spec h.toIsTree hd hs fun n hn => h.target_lt hn
  -- The domain contains both targets, so it is at or around the compound state.
  have hwithin : ∀ a ∈ (c.transition t).targets, c.Within (c.anchor a) d := fun a ha => by
    rcases htargets a ha with had | ⟨rfl, rfl⟩
    · exact within_anchor h had
    · rw [anchor_of_not_history (root_not_history h)]; exact .refl _
  have hxd : c.Within x d := hleast ▸
    (leastCommon_spec h.toIsTree (anchor_lt h hmlt) (anchor_lt h hnlt)).2.2 d
      (hwithin m hm) (hwithin n hn)
  have hin : ∀ {y}, (c.node y).parent = some x → c.isDescendant y d = true := fun hy =>
    (h.isDescendant_iff_parent hy).mpr hxd
  have hke := mem_entrySet_of_around h we hr he ht hd hm hmk (hin hk)
  have hle := mem_entrySet_of_around h we hr he ht hd hn hnl (hin hl)
  exact hkl (hunsplit x hx k hke l hle hk hl)

end Split

end Chart

namespace Machine

open Chart

variable {C E A : Type} {m : Machine C E A}

/-- Which transitions split a compound state. In a legal configuration whose remembered states
can be entered again, the transitions that are selected have an entry set. If all of them target
orthogonal states then no compound state has two children in it, and the microstep leads to such a
configuration again. If targets are never one inside the other then orthogonal targets are the only
ones that split nothing. -/
theorem unsplit_iff_aimsApart {registry : Registry C E A} {context : C} {maxMicrosteps : Nat}
    {d : Definition} (hb : build registry context maxMicrosteps d = .ok m)
    (we : m.chart.Enterable) {x : Execution C E} (hx : m.chart.Sound x.configuration x.history)
    {handled : Event} {trigger : Trigger} {transitions : List Nat}
    (hsel : m.registry.select m.chart x.configuration x.context handled trigger = .ok transitions) :
    ∃ entries, m.chart.entrySet (Execution.recordHistory m.chart
        (m.chart.exitSet x.configuration transitions) x).history transitions = some entries ∧
      ((∀ t ∈ transitions, m.chart.AimsApart t) → m.chart.Unsplit entries ∧
        ∀ mode event (y : Execution C E),
          Execution.microstep m.chart m.registry mode transitions event x = .ok y →
            m.chart.Sound y.configuration y.history) ∧
      ((∀ t ∈ transitions, (m.chart.transition t).targets.Pairwise m.chart.Unnested) →
        (m.chart.Unsplit entries ↔ ∀ t ∈ transitions, m.chart.AimsApart t)) := by
  have h := accepted_of_build hb
  have hselected := Registry.selected_of_select h hx.legal.lt_size hsel
  have hsource := hselected.source_lt h hx.legal.lt_size
  have hrest := (hx.remembers.recordHistory h we hx.legal
    (m.chart.exitSet x.configuration transitions) fun n hn => (mem_exitSet.mp hn).1).restorable h we
  obtain ⟨entries, he⟩ := exists_entrySet h we hrest transitions
  have hunsplit : (∀ t ∈ transitions, m.chart.AimsApart t) → m.chart.Unsplit entries := fun ho =>
    (hx.exchange_of_aimsApart h we hselected ho he).1.unsplit h.toIsTree
  refine ⟨entries, he, fun ho => ⟨hunsplit ho, fun mode event y hy =>
    hx.microstep_of_aimsApart h we hsel ho hy⟩, fun hu => ⟨fun hs t ht => ?_, hunsplit⟩⟩
  refine (hu t ht).imp_of_mem fun {a b} ha hb' hab => ?_
  by_contra ho
  exact hab.not_unsplit h we hrest he ht (hsource t ht) ha hb' ho hs

/-- A stage whose light and sound are the regions of a parallel state. -/
def stage : Definition := {
  key := "stage"
  initial := some "idle"
  states := [
    { key := "idle"
      on := [
        ⟨"OPEN", [{ target := ["#stage.show.light.bright", "#stage.show.sound.loud"] }]⟩,
        ⟨"MIX", [{ target := ["#stage.show.light.dim", "#stage.show.light.bright"] }]⟩,
        ⟨"GO", [{ target := ["#stage.show", "#stage.show.light.bright"] }]⟩,
        ⟨"BACK", [{ target := ["#stage.show.light.bright", "#stage.show"] }]⟩] },
    { key := "show"
      kind := some .parallel
      states := [
        { key := "light", states := [{ key := "dim" }, { key := "bright" }] },
        { key := "sound", states := [{ key := "mute" }, { key := "loud" }] }] }] }

def stageMachine : Machine Unit Unit Unit := buildD {} () 10 stage

theorem stage_built : build {} () 10 stage = .ok stageMachine := build_eq_buildD (by decide +kernel)

theorem stage_enterable : stageMachine.chart.Enterable := by decide +kernel

def stageSelects (s : Snapshot Unit) (event : String) : Except Failure (List Nat) :=
  stageMachine.registry.select stageMachine.chart s.configuration s.context { type := event } .event

/-- The states that a transition of the stage enters from a snapshot. -/
def stageEntries (s : Snapshot Unit) (t : Nat) : Option NodeSet :=
  stageMachine.chart.entrySet (Execution.recordHistory stageMachine.chart
    (stageMachine.chart.exitSet s.configuration [t]) (execution (E := Unit) s)).history [t]

theorem stage_start {s : Snapshot Unit} (hs : stageMachine.initial = .ok s) :
    stageMachine.chart.Sound s.configuration s.history := by
  have hb := stage_built
  -- No event is raised and no transition is without one, so the start ends with the first entries.
  have hidle : stageMachine.initial.toOption.any
      (fun s => s.configuration == .ofList [0, 1] && s.history == []) = true := by decide +kernel
  have hentered : (Execution.enterInitial stageMachine.chart stageMachine.registry .replay .init
      { configuration := ∅, context := (), history := [] }).toOption.any
      (fun x => x.configuration == .ofList [0, 1] && x.history == []) = true := by decide +kernel
  obtain ⟨x, hx, hentered⟩ := exists_ok_of_any hentered
  rw [hs, Except.toOption, Option.any_some] at hidle
  simp only [Bool.and_eq_true, beq_iff_eq] at hidle hentered
  have hsound := sound_enterInitial (accepted_of_build hb) stage_enterable rfl rfl hx
  rwa [hentered.1, hentered.2, ← hidle.1, ← hidle.2] at hsound

/-- Light and sound are opened together, but two lights are not. -/
theorem unsplit_stage : ∃ s, stageMachine.initial = .ok s ∧
    (∃ entries, stageEntries s 0 = some entries ∧ stageMachine.chart.Unsplit entries) ∧
    ∃ entries, stageEntries s 1 = some entries ∧ ¬ stageMachine.chart.Unsplit entries := by
  have hb := stage_built
  have hrun : stageMachine.initial.toOption.any (fun s =>
      decide (stageSelects s "OPEN" = .ok [0] ∧ stageSelects s "MIX" = .ok [1])) = true := by
    decide +kernel
  obtain ⟨s, hs, hselects⟩ := exists_ok_of_any hrun
  obtain ⟨hopen, hmix⟩ := of_decide_eq_true hselects
  refine ⟨s, hs, ?_, ?_⟩
  · obtain ⟨entries, he, hapart, -⟩ :=
      unsplit_iff_aimsApart hb stage_enterable (x := execution s) (stage_start hs) hopen
    exact ⟨entries, he, (hapart (by decide +kernel)).1⟩
  · obtain ⟨entries, he, -, hiff⟩ :=
      unsplit_iff_aimsApart hb stage_enterable (x := execution s) (stage_start hs) hmix
    exact ⟨entries, he, mt (hiff (by decide +kernel)).mp (by decide +kernel)⟩

/-- The show with its bright light is entered with the dim light as well, since the default of the
show is put in before the light is looked at. Named the other way round, the same two states are
entered without. -/
theorem stage_split : ∃ s, build {} () 10 stage = .ok stageMachine ∧ stageMachine.Reachable s ∧
    stageMachine.chart.Legal s.configuration ∧
    stageSelects s "GO" = .ok [2] ∧ stageSelects s "BACK" = .ok [3] ∧
    (∃ entries, stageEntries s 2 = some entries ∧ ¬ stageMachine.chart.Unsplit entries) ∧
    ∃ entries, stageEntries s 3 = some entries ∧ stageMachine.chart.Unsplit entries := by
  have hb := stage_built
  have hrun : stageMachine.initial.toOption.any (fun s =>
      decide (stageSelects s "GO" = .ok [2] ∧ stageSelects s "BACK" = .ok [3] ∧
        (stageEntries s 2).any (fun e => decide (¬ stageMachine.chart.Unsplit e)) ∧
        (stageEntries s 3).any fun e => decide (stageMachine.chart.Unsplit e))) = true := by
    decide +kernel
  obtain ⟨s, hs, hentries⟩ := exists_ok_of_any hrun
  obtain ⟨hgo, hback, hsplit, hunsplit⟩ := of_decide_eq_true hentries
  simp only [Option.any_eq_true, decide_eq_true_eq] at hsplit hunsplit
  exact ⟨s, hb, reachable_of_initial hs, (stage_start hs).legal, hgo, hback, hsplit, hunsplit⟩

end Machine

end Statechart
