import Statechart.Proofs.Configuration.Completion
import Statechart.Proofs.Macrostep.Microsteps

/-!
# Announcements of microsteps

When a final state is entered its parent is announced, and a parallel grandparent that is in a
final configuration by then. The entries that are still to come do not undo a final
configuration, so what is announced early is still true at the end of the microstep. But the
parent is announced whatever it is: a parallel state is announced with the entry of a region that
is final, though its other regions have not completed (`parcel_sent_early`).

A parallel state with no region that is final or parallel is announced once when it completes, in
whatever order its regions do. One with such regions may be announced never or twice
(`release_never_announced`): only the parent and the grandparent of a final state are looked at,
and only when that is entered.

* `Microstep.truthful`: what an announcement says of the end of the microstep.
* `Microstep.announced_once`: how often a parallel state is announced.
-/
namespace Statechart

/-- Entering `f` completes `n`. -/
def Completes (c : Chart) (s : NodeSet) (phases : List Phase) (f n : Nat) : Prop :=
  ∃ before after, phases = before ++ .enter f :: after ∧
    ¬ c.Completed (before.foldl Phase.apply s) n ∧
    c.Completed ((before.foldl Phase.apply s).insert f) n

theorem exists_completes {c : Chart} {n : Nat} : ∀ {phases : List Phase} {s : NodeSet},
    ¬ c.Completed s n → c.Completed (phases.foldl Phase.apply s) n → ∃ f, Completes c s phases f n
  | [], _, hbefore, hn => absurd hn hbefore
  | p :: phases, s, hbefore, hn => by
    by_cases hp : c.Completed (p.apply s) n
    · cases p with
      | exit k => exact absurd (hp.mono fun _ hk => (NodeSet.mem_erase.mp hk).1) hbefore
      | act t => exact absurd hp hbefore
      | enter f => exact ⟨f, [], phases, rfl, hbefore, hp⟩
    · obtain ⟨f, before, after, rfl, hrest⟩ := exists_completes hp hn
      exact ⟨f, p :: before, after, rfl, hrest⟩

/-- The entry of a child of a region announces the parallel state that it completes. -/
theorem mem_completions_of_completes {c : Chart} {s : NodeSet} {n f r : Nat} {phases : List Phase}
    (h : c.IsTree) (hroot : n ≠ Chart.root) (hpar : (c.node n).isParallel = true)
    (hf : Completes c s phases f n) (hfr : (c.node f).parent = some r)
    (hrn : (c.node r).parent = some n) : n ∈ completions c s phases := by
  obtain ⟨before, after, hphases, hbefore, hcompleted⟩ := hf
  exact mem_completions.mpr ⟨before, f, after, hphases,
    Chart.isFinal_of_completes hbefore hcompleted,
    (Chart.mem_announced h).mpr ⟨hroot, .inr ⟨r, hfr, hrn, hpar, hcompleted⟩⟩⟩

/-- A state that phases announce, where they end. -/
inductive Announced (c : Chart) (phases : List Phase) (configuration : NodeSet) (n : Nat) : Prop
  /-- The active child of a compound state is final. -/
  | compound {k : Nat} (h : (c.node n).isCompound = true)
      (hk : k ∈ c.activeChildren n configuration) (hf : (c.node k).isFinal = true)
      (only : c.WellFormed → c.activeChildren n configuration = [k])
  /-- Every region of a parallel state is in a final configuration. -/
  | parallel (h : (c.node n).isParallel = true)
      (hr : ∀ r ∈ c.regions n, c.Completed configuration r)
  /-- A region of a parallel state is itself final and was entered. Nothing is known of its other
  regions. -/
  | region {r : Nat} (h : (c.node n).isParallel = true) (hr : r ∈ c.regions n)
      (hf : (c.node r).isFinal = true) (he : .enter r ∈ phases)

namespace Machine

variable {C E A : Type} [BEq C] {m : Machine C E A} {mode : Mode} {event : Event}
  {x y : Execution C E} {phases : List Phase}

namespace Microstep

/-! ## Truthful announcements -/

/-- What is active after an entry stays active. -/
theorem kept (hm : m.Microstep mode event x phases y) {before middle after : List Phase} {f : Nat}
    (hf : phases = before ++ .enter f :: (middle ++ after)) :
    ∀ k ∈ (before.foldl Phase.apply x.configuration).insert f,
      k ∈ (before ++ .enter f :: middle).foldl Phase.apply x.configuration := by
  intro k hk
  rw [List.foldl_append, List.foldl_cons]
  exact mem_foldl_of_not_exit hk fun n hn => hm.entries_last hf n (List.mem_append_left _ hn)

theorem kept_to_end (hm : m.Microstep mode event x phases y) {before after : List Phase} {f : Nat}
    (hf : phases = before ++ .enter f :: after) :
    ∀ k ∈ (before.foldl Phase.apply x.configuration).insert f, k ∈ y.configuration := by
  have hall : phases = before ++ .enter f :: (after ++ []) := by rw [hf, List.append_nil]
  rw [hm.written.configuration, hf]
  exact hm.kept hall

/-- What is announced is in a final configuration at the end of the microstep, unless it was
announced for a region. -/
theorem announced_of_mem {names : Names} (h : m.chart.Accepted names)
    (hm : m.Microstep mode event x phases y) {n : Nat}
    (hn : n ∈ completions m.chart x.configuration phases) :
    n ≠ Chart.root ∧ Announced m.chart phases y.configuration n := by
  obtain ⟨before, f, after, hf, hfinal, hannounced⟩ := mem_completions.mp hn
  have hkept := hm.kept_to_end hf
  obtain ⟨hroot, hparent | ⟨p, -, -, hpar, hcompleted⟩⟩ :=
    (Chart.mem_announced h.toIsTree).mp hannounced
  · refine ⟨hroot, ?_⟩
    rcases Chart.inner_of_parent h hparent with hcomp | hpar
    · have hactive := (Chart.mem_activeChildren h.toIsTree).mpr
        ⟨hparent, hkept f (NodeSet.mem_insert.mpr (.inl rfl))⟩
      refine .compound hcomp hactive hfinal fun wf => ?_
      have hlegal := (hm.sound h wf).legal
      obtain ⟨k, hk⟩ := hlegal.child n
        (hlegal.parent_mem f ((Chart.mem_activeChildren h.toIsTree).mp hactive).2 n hparent) hcomp
      rw [hk, List.mem_singleton] at hactive
      rw [hk, hactive]
    · have hregion := (Chart.mem_regions h.toIsTree).mpr ⟨hparent, Node.not_history (.inl hfinal)⟩
      exact .region hpar hregion hfinal (by rw [hf]; simp)
  · exact ⟨hroot, .parallel hpar ((hcompleted.mono hkept).of_parallel hpar)⟩

/-- Announcements are truthful, but for parallel states with final regions. What a microstep
raises is what its actions ask for and what it announces. -/
theorem truthful {registry : Registry C E A} {context : C} {maxMicrosteps : Nat} {d : Definition}
    (hb : build registry context maxMicrosteps d = .ok m)
    (hm : m.Microstep mode event x phases y) :
    y.internal = x.internal ++ (raises m.chart x.configuration phases).map (Raise.event m.chart) ∧
    ∀ n ∈ completions m.chart x.configuration phases,
      n ≠ Chart.root ∧ Announced m.chart phases y.configuration n :=
  ⟨hm.written.internal, fun _ hn => hm.announced_of_mem (accepted_of_build hb) hn⟩

end Microstep

/-- A parcel that is sent when the job of packing it is done. Its label is printed at once. -/
def parcel : Definition := {
  key := "parcel"
  initial := some "open"
  states := [
    { key := "open", on := [⟨"PACK", [{ target := ["job"] }]⟩] },
    { key := "job"
      kind := some .parallel
      onDone := [{ target := ["sent"] }]
      states := [
        { key := "label", kind := some .final },
        { key := "box"
          initial := some "empty"
          states := [
            { key := "empty", on := [⟨"FILL", [{ target := ["full"] }]⟩] },
            { key := "full", kind := some .final }] }] },
    { key := "sent" }] }

def parcelMachine : Machine Unit Unit Unit := buildD {} () 10 parcel

/-- A parallel state is announced when a final region of it is entered, though another region
has not completed: the parcel is sent while its box is empty. -/
theorem parcel_sent_early : build {} () 10 parcel = .ok parcelMachine ∧
    ¬ ∀ mode event x phases y, parcelMachine.Microstep mode event x phases y →
      ∀ n ∈ completions parcelMachine.chart x.configuration phases,
        parcelMachine.chart.Completed y.configuration n := by
  have hb : build {} () 10 parcel = .ok parcelMachine := build_eq_buildD (by decide +kernel)
  refine ⟨hb, fun hall => ?_⟩
  have hrun : (match (parcelMachine.startStep .live).result with
    | .error _ => false
    | .ok a => (parcelMachine.firstMicrostep? .live a.snapshot { type := "PACK" }).any
        fun (phases, y) => 2 ∈ completions parcelMachine.chart a.snapshot.configuration phases ∧
          parcelMachine.chart.isComplete y.configuration 2 = false) = true := by
    decide +kernel
  split at hrun
  · cases hrun
  · rename_i a ha
    obtain ⟨⟨phases, y⟩, hfirst, hdone⟩ := (Option.any_eq_true _ _).mp hrun
    obtain ⟨hannounced, hincomplete⟩ := of_decide_eq_true hdone
    have hm := (Reachable.start ha).firstMicrostep hfirst
    have hcompleted := hall _ _ _ phases y hm 2 hannounced
    rw [(Chart.isComplete_iff (accepted_of_build hb).toIsTree).mpr hcompleted] at hincomplete
    cases hincomplete

/-- A release with an upload and with checks, and these again with two parts. -/
def release : Definition :=
  let part (key : String) : Definition := {
    key
    initial := some "busy"
    states := [
      { key := "busy", on := [⟨"FINISH", [{ target := ["done"] }]⟩] },
      { key := "done", kind := some .final }] }
  { key := "release"
    initial := some "job"
    states := [
      { key := "job"
        kind := some .parallel
        onDone := [{ target := ["complete"] }]
        states := [part "upload",
          { key := "checks", kind := some .parallel, states := [part "scan", part "review"] }] },
      { key := "complete" }] }

def releaseMachine : Machine Unit Unit Unit := buildD {} () 10 release

theorem release_built : build {} () 10 release = .ok releaseMachine := build_eq_buildD (by decide +kernel)

/-- All parts finish at once. Each of them is announced, and the checks are, but the job is not. -/
theorem finished_release : ∃ x phases y,
    releaseMachine.Microstep .live { type := "FINISH" } x phases y ∧
    completions releaseMachine.chart x.configuration phases = [2, 6, 9, 5] ∧
    releaseMachine.chart.isComplete x.configuration 1 = false ∧
    releaseMachine.chart.isComplete x.configuration 5 = false ∧
    (1 ∈ y.configuration ∧ 5 ∈ y.configuration) ∧
    releaseMachine.chart.isComplete y.configuration 1 = true ∧
    releaseMachine.chart.isComplete y.configuration 5 = true := by
  have hrun : (match (releaseMachine.startStep .live).result with
    | .error _ => false
    | .ok a => (releaseMachine.firstMicrostep? .live a.snapshot { type := "FINISH" }).any
        fun (phases, y) =>
          completions releaseMachine.chart a.snapshot.configuration phases = [2, 6, 9, 5] ∧
          releaseMachine.chart.isComplete a.snapshot.configuration 1 = false ∧
          releaseMachine.chart.isComplete a.snapshot.configuration 5 = false ∧
          (1 ∈ y.configuration ∧ 5 ∈ y.configuration) ∧
          releaseMachine.chart.isComplete y.configuration 1 = true ∧
          releaseMachine.chart.isComplete y.configuration 5 = true) = true := by
    decide +kernel
  split at hrun
  · cases hrun
  · rename_i a ha
    obtain ⟨⟨phases, y⟩, hfirst, hall⟩ := (Option.any_eq_true _ _).mp hrun
    exact ⟨_, phases, y, (Reachable.start ha).firstMicrostep hfirst, of_decide_eq_true hall⟩

/-- The parts are in final configurations when they are announced, and so are the checks. -/
theorem truthful_release : build {} () 10 release = .ok releaseMachine ∧ ∃ x phases y,
    releaseMachine.Microstep .live { type := "FINISH" } x phases y ∧
    y.internal = x.internal ++
      (raises releaseMachine.chart x.configuration phases).map (Raise.event releaseMachine.chart) ∧
    ∀ n ∈ [2, 6, 9, 5], n ≠ Chart.root ∧
      Announced releaseMachine.chart phases y.configuration n := by
  have hb := release_built
  obtain ⟨x, phases, y, hm, hannounced, -⟩ := finished_release
  obtain ⟨hqueue, hall⟩ := Microstep.truthful hb hm
  exact ⟨hb, x, phases, y, hm, hqueue, hannounced ▸ hall⟩

namespace Microstep

/-! ## Announced once -/

section Once

variable {names : Names} (h : m.chart.Accepted names) (wf : m.chart.WellFormed)
  (hm : m.Microstep mode event x phases y) {n : Nat}
include h wf hm

/-- What a child of a compound region announces was not in a final configuration before. -/
theorem not_completed_before (hpar : (m.chart.node n).isParallel = true)
    {before after : List Phase} {f r : Nat} (hf : phases = before ++ .enter f :: after)
    (hfr : (m.chart.node f).parent = some r) (hrn : (m.chart.node r).parent = some n)
    (hr : (m.chart.node r).isCompound = true) :
    ¬ m.chart.Completed (before.foldl Phase.apply x.configuration) n := by
  intro hcompleted
  have hregion : r ∈ m.chart.regions n :=
    (Chart.mem_regions h.toIsTree).mpr ⟨hrn, Node.not_history (.inr (.inl hr))⟩
  obtain ⟨k, hk, -⟩ := (hcompleted.of_parallel hpar r hregion).of_compound hr
  obtain ⟨hkr, hactive⟩ := (Chart.mem_activeChildren h.toIsTree).mp hk
  have hkept := hm.kept_to_end hf
  have hturn := hm.turnover h wf
  -- the region has one active child, so it is the final state that was active before its entry
  obtain rfl := hturn.legal.child_unique h.toIsTree hr
    (hkept k (NodeSet.mem_insert.mpr (.inr hactive)))
    (hkept f (NodeSet.mem_insert.mpr (.inl rfl))) hkr hfr
  rw [hturn.fresh _ _ _ hf hactive, h.parent_root] at hfr
  cases hfr

/-- A plain parallel state is announced once at most. -/
theorem count_completions_le_one (hpar : (m.chart.node n).isParallel = true)
    (hplain : m.chart.Plain n) : (completions m.chart x.configuration phases).count n ≤ 1 := by
  by_cases hn : n ∈ completions m.chart x.configuration phases
  · obtain ⟨before, f, after, hf, hfinal, hannounced⟩ := mem_completions.mp hn
    obtain ⟨r, hfr, hrn, hr, hcompleted⟩ := hplain.announcer h.toIsTree hfinal hannounced
    have hbefore : n ∉ completions m.chart x.configuration before := fun hn => by
      obtain ⟨b, g, a, rfl, hgfinal, hg⟩ := mem_completions.mp hn
      obtain ⟨-, -, -, -, hearly⟩ := hplain.announcer h.toIsTree hgfinal hg
      have hcut : phases = b ++ .enter g :: (a ++ .enter f :: after) := by
        rw [hf, List.append_assoc, List.cons_append]
      exact hm.not_completed_before h wf hpar hf hfr hrn hr (hearly.mono (hm.kept hcut))
    have hafter : n ∉ completions m.chart ((before.foldl Phase.apply x.configuration).insert f)
        after := fun hn => by
      obtain ⟨b, g, a, rfl, hgfinal, hg⟩ := mem_completions.mp hn
      obtain ⟨q, hgq, hqn, hq, -⟩ := hplain.announcer h.toIsTree hgfinal hg
      have hcut : phases = (before ++ .enter f :: b) ++ .enter g :: a := by
        rw [hf, List.append_assoc, List.cons_append]
      exact hm.not_completed_before h wf hpar hcut hgq hqn hq (hcompleted.mono (hm.kept hf))
    have hhere := List.nodup_iff_count_le_one.mp (Chart.announced_nodup h.toIsTree
      ((before.foldl Phase.apply x.configuration).insert f) f) n
    rw [hf, completions_append, completions_enter, if_pos hfinal, List.count_append,
      List.count_append, List.count_eq_zero.mpr hbefore, List.count_eq_zero.mpr hafter]
    omega
  · rw [List.count_eq_zero.mpr hn]
    exact Nat.zero_le _

/-- A parallel state with compound regions is announced when it completes. -/
theorem mem_completions_of_compound (hroot : n ≠ Chart.root)
    (hpar : (m.chart.node n).isParallel = true)
    (hregions : ∀ r ∈ m.chart.regions n, (m.chart.node r).isCompound = true)
    (hn : n ∈ y.configuration) (hafter : m.chart.Completed y.configuration n)
    (hbefore : ¬ (n ∈ x.configuration ∧ m.chart.Completed x.configuration n)) :
    n ∈ completions m.chart x.configuration phases := by
  have hturn := hm.turnover h wf
  -- compound regions are completed by active children, and these have active parents
  have hnot : ¬ m.chart.Completed x.configuration n := fun hcompleted => by
    obtain ⟨r, hr⟩ := List.exists_mem_of_ne_nil _
      (wf.regions_ne_nil n (hturn.legal.lt_size n hn) hpar)
    obtain ⟨k, hk, -⟩ := (hcompleted.of_parallel hpar r hr).of_compound (hregions r hr)
    obtain ⟨hkr, hactive⟩ := (Chart.mem_activeChildren h.toIsTree).mp hk
    have hractive := hturn.parent_mem k hactive r hkr
    exact hbefore ⟨hturn.parent_mem r hractive n ((Chart.mem_regions h.toIsTree).mp hr).1,
      hcompleted⟩
  rw [hm.written.configuration] at hafter
  obtain ⟨f, before, after, hphases, hearly, hcompleted⟩ := exists_completes hnot hafter
  obtain ⟨r, hr, hrearly⟩ : ∃ r ∈ m.chart.regions n,
      ¬ m.chart.Completed (before.foldl Phase.apply x.configuration) r := by
    by_contra hall
    push Not at hall
    exact hearly (.parallel hpar hall)
  exact mem_completions_of_completes h.toIsTree hroot hpar
    ⟨before, after, hphases, hearly, hcompleted⟩
    (Chart.parent_of_completes h.toIsTree (hregions r hr) hrearly (hcompleted.of_parallel hpar r hr))
    ((Chart.mem_regions h.toIsTree).mp hr).1

end Once

/-- How often a microstep announces a parallel state. -/
structure AnnouncedOnce (c : Chart) (x : Execution C E) (phases : List Phase) (y : Execution C E)
    (n : Nat) : Prop where
  /-- What is announced is raised, and nothing else is but what actions ask for. -/
  queue : y.internal = x.internal ++ (raises c x.configuration phases).map (Raise.event c)
  /-- A plain one is announced once at most: when a child of a region completes it. -/
  plain : c.Plain n → (completions c x.configuration phases).count n ≤ 1 ∧
    (n ∈ completions c x.configuration phases ↔ ∃ f r, Completes c x.configuration phases f n ∧
      (c.node f).parent = some r ∧ (c.node r).parent = some n)
  /-- One with no region that is final or parallel is announced once if it completes. -/
  once : (∀ r ∈ c.regions n, (c.node r).isFinal = false ∧ (c.node r).isParallel = false) →
    n ∈ y.configuration → c.Completed y.configuration n →
    ¬ (n ∈ x.configuration ∧ c.Completed x.configuration n) →
      (completions c x.configuration phases).count n = 1

/-- A parallel state with no region that is final or parallel is announced exactly once when it
completes, in whatever order its regions come. -/
theorem announced_once {registry : Registry C E A} {context : C} {maxMicrosteps : Nat}
    {d : Definition} (hb : build registry context maxMicrosteps d = .ok m)
    (wf : m.chart.WellFormed) (hm : m.Microstep mode event x phases y) {n : Nat}
    (hroot : n ≠ Chart.root) (hpar : (m.chart.node n).isParallel = true) :
    AnnouncedOnce m.chart x phases y n := by
  have h := accepted_of_build hb
  refine ⟨hm.written.internal, fun hplain => ⟨hm.count_completions_le_one h wf hpar hplain,
    fun hn => ?_, ?_⟩, fun hkinds hn hafter hbefore => ?_⟩
  · obtain ⟨before, f, after, hf, hfinal, hannounced⟩ := mem_completions.mp hn
    obtain ⟨r, hfr, hrn, hr, hcompleted⟩ := hplain.announcer h.toIsTree hfinal hannounced
    exact ⟨f, r, ⟨before, after, hf,
      hm.not_completed_before h wf hpar hf hfr hrn hr, hcompleted⟩, hfr, hrn⟩
  · rintro ⟨f, r, hf, hfr, hrn⟩
    exact mem_completions_of_completes h.toIsTree hroot hpar hf hfr hrn
  · -- regions that are neither complete only as compound states
    have hregions : ∀ r ∈ m.chart.regions n, (m.chart.node r).isCompound = true := fun r hr =>
      (hafter.of_parallel hpar r hr).isCompound (hkinds r hr).1 (hkinds r hr).2
    have hmem := hm.mem_completions_of_compound h wf hroot hpar hregions hn hafter hbefore
    have hle := hm.count_completions_le_one h wf hpar (Chart.plain_of_compound h hregions)
    exact Nat.le_antisymm hle (List.count_pos_iff.mpr hmem)

end Microstep

/-- A parallel state can complete without being announced: the last part of the release that
finishes belongs to its checks, and the job that they belong to is not looked at. -/
theorem release_never_announced : build {} () 10 release = .ok releaseMachine ∧
    ¬ ∀ mode event x phases y, releaseMachine.Microstep mode event x phases y →
      ∀ n, n ≠ Chart.root → (releaseMachine.chart.node n).isParallel = true →
        n ∈ y.configuration → releaseMachine.chart.Completed y.configuration n →
        ¬ (n ∈ x.configuration ∧ releaseMachine.chart.Completed x.configuration n) →
        (completions releaseMachine.chart x.configuration phases).count n = 1 := by
  have hb := release_built
  refine ⟨hb, fun hall => ?_⟩
  have htree := (accepted_of_build hb).toIsTree
  obtain ⟨x, phases, y, hm, hannounced, hx, -, hy, hdone, -⟩ := finished_release
  have hcount := hall _ _ x phases y hm 1 (by decide) (by decide +kernel) hy.1
    ((Chart.isComplete_iff htree).mp hdone)
    fun hbefore => by rw [(Chart.isComplete_iff htree).mpr hbefore.2] at hx; cases hx
  rw [hannounced] at hcount
  exact absurd hcount (by decide)

/-- The checks have compound parts, and they are announced once. -/
theorem announced_once_release : build {} () 10 release = .ok releaseMachine ∧
    releaseMachine.chart.WellFormed ∧ ∃ x phases y,
      releaseMachine.Microstep .live { type := "FINISH" } x phases y ∧
      (5 ≠ Chart.root ∧ (releaseMachine.chart.node 5).isParallel = true) ∧
      Microstep.AnnouncedOnce releaseMachine.chart x phases y 5 ∧
      (completions releaseMachine.chart x.configuration phases).count 5 = 1 := by
  have hb := release_built
  have wf : releaseMachine.chart.WellFormed := by decide +kernel
  have hpar : (releaseMachine.chart.node 5).isParallel = true := by decide +kernel
  have htree := (accepted_of_build hb).toIsTree
  obtain ⟨x, phases, y, hm, -, -, hx, hy, -, hdone⟩ := finished_release
  have honce := Microstep.announced_once hb wf hm (n := 5) (by decide) hpar
  refine ⟨hb, wf, x, phases, y, hm, ⟨by decide, hpar⟩, honce, honce.once ?_ hy.2
    ((Chart.isComplete_iff htree).mp hdone) fun hbefore => ?_⟩
  · decide +kernel
  · rw [(Chart.isComplete_iff htree).mpr hbefore.2] at hx
    cases hx

end Machine

end Statechart
