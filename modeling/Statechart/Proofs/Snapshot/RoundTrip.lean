import Statechart.Proofs.Bounds.Macrostep
import Statechart.Proofs.Configuration.Reachable
import Statechart.Proofs.Json.Records
import Statechart.Proofs.Macrostep.Unchanged

/-!
# Snapshots are read back from their text

Every part of a snapshot has a written form of its own, and is read back from it where it is as a
machine leaves it: the branches of the value and the history are in order, each name once, and
states have numbers that can be written. A snapshot that a machine has come to is so
(`Machine.Visited.exact`), if there are no floats in its context and in the payload of its event.
So it can be put away as text and be gone on with later.

* `StateValue.read_toJson`: values.
* `Snapshot.read_toJson`: snapshots.
* `Machine.Visited.exact`: the snapshots of a machine.
* `Snapshot.reads_back`: what is read is what was written, and goes on in the same way.
-/
namespace Statechart

/-! ## Values -/

namespace StateValue

mutual

/-- The entries of all branches are in order, each key once. -/
def Ordered : StateValue → Prop
  | .leaf _ => True
  | .branch children => Dict.Sorted children ∧ OrderedAll children

def OrderedAll : List (String × StateValue) → Prop
  | [] => True
  | (_, child) :: rest => Ordered child ∧ OrderedAll rest

end

theorem orderedAll_iff {children : List (String × StateValue)} :
    OrderedAll children ↔ ∀ e ∈ children, e.2.Ordered := by
  induction children with
  | nil => simp [OrderedAll]
  | cons e children ih => rw [OrderedAll, ih, List.forall_mem_cons]

theorem toJsonAll_eq (children : List (String × StateValue)) :
    toJsonAll children = children.map fun e => (e.1, e.2.toJson) := by
  induction children with
  | nil => rfl
  | cons e children ih => rw [toJsonAll, ih, List.map_cons]

theorem ordered_ofConfigurationWithin (c : Chart) (configuration : NodeSet) :
    ∀ levels n, (ofConfigurationWithin c configuration levels n).Ordered := by
  have hempty : (branch []).Ordered := ⟨.nil, trivial⟩
  intro levels
  induction levels with
  | zero => exact fun _ => hempty
  | succ levels ih =>
    intro n
    rw [ofConfigurationWithin]
    split
    · refine ⟨Dict.sorted_ofList _, orderedAll_iff.mpr fun e he => ?_⟩
      obtain ⟨k, -, rfl⟩ := List.mem_map.mp (Dict.mem_of_mem_ofList he)
      dsimp only
      split
      · exact hempty
      · exact ih k
    · split
      · exact hempty
      · rename_i k _ _
        split
        · trivial
        · exact ⟨List.pairwise_singleton .., ih k, trivial⟩

mutual

theorem Ordered.toJson : ∀ {v : StateValue}, v.Ordered → v.toJson.Exact
  | .leaf key, _ => .str key
  | .branch children, hv => by
    rw [StateValue.toJson, toJsonAll_eq]
    refine .obj ?_ fun e he => ?_
    · exact List.pairwise_map.mpr hv.1
    · obtain ⟨child, hchild, rfl⟩ := List.mem_map.mp he
      exact OrderedAll.toJson hv.2 child hchild

theorem OrderedAll.toJson : ∀ {children : List (String × StateValue)}, OrderedAll children →
    ∀ e ∈ children, e.2.toJson.Exact
  | [], _ => nofun
  | _ :: _, h => List.forall_mem_cons.mpr ⟨Ordered.toJson h.1, OrderedAll.toJson h.2⟩

end

theorem read_obj (room : Nat) (fields : List (Option String × Draft)) :
    read room (.obj fields) = (Draft.dict? read room (.obj fields)).map .branch := by
  cases room with
  | zero => rfl
  | succ room =>
    simp only [read, Draft.dict?, Option.bind_eq_bind, Option.map_bind]
    rfl

mutual

/-- A value is read back, if its branches are in order. -/
theorem read_toJson : ∀ (v : StateValue) {room : Nat}, v.Ordered → v.toJson.depth ≤ room →
    read room (.ofJson v.toJson) = some v
  | .leaf key, room, _, _ => by cases room <;> rfl
  | .branch children, room, hv, hroom => by
    rw [toJson, toJsonAll_eq] at hroom ⊢
    rw [Draft.ofJson, read_obj, ← Draft.ofJson,
      Draft.dict?_ofJson hv.1 hroom (read_toJsonAll children hv.2)]
    rfl

theorem read_toJsonAll : ∀ (children : List (String × StateValue)), OrderedAll children →
    ∀ e ∈ children, ∀ {room : Nat}, e.2.toJson.depth ≤ room →
      read room (.ofJson e.2.toJson) = some e.2
  | [], _ => nofun
  | (_, child) :: children, h => List.forall_mem_cons.mpr
      ⟨read_toJson child h.1, read_toJsonAll children h.2⟩

end

end StateValue

/-! ## Snapshots -/

namespace Snapshot

variable {s : Snapshot Json}

/-- All parts of a snapshot are as they are written. -/
structure Exact (s : Snapshot Json) : Prop where
  value : s.value.Ordered
  configuration : ∀ n ∈ s.configuration, n ≤ maxNat64
  context : s.context.Exact
  history : s.history.Sorted
  remembered : ∀ e ∈ s.history, ∀ n ∈ e.2, n ≤ maxNat64
  event : s.event.Exact

theorem toJson_eq (s : Snapshot Json) : s.toJson id = .record [
    ("value", some s.value.toJson),
    ("configuration", some (.ofNats s.configuration.toList)),
    ("context", some s.context),
    ("history", some (.obj (s.history.map fun e => (e.1, .ofNats e.2)))),
    ("event", some s.event.toJson),
    ("actions", some (.ofTexts s.actions)),
    ("done", some (.bool s.done)),
    ("changed", some (.bool s.changed))] := rfl

theorem exact_ofNats {l : List Nat} (h : ∀ n ∈ l, n ≤ maxNat64) : (Json.ofNats l).Exact :=
  .list fun n hn => .ofNat (h n hn)

theorem Exact.toJson (h : s.Exact) : (s.toJson id).Exact := by
  rw [toJson_eq]
  refine .record ?_
  simp only [List.forall_mem_cons]
  refine ⟨.some h.value.toJson, .some (exact_ofNats h.configuration), .some h.context,
    .some (.obj ?_ fun e he => ?_), .some h.event.toJson, .some (.list fun s _ => .str s),
    .some (.bool _), .some (.bool _), List.forall_mem_nil _⟩
  · exact List.pairwise_map.mpr h.history
  · obtain ⟨entry, hentry, rfl⟩ := List.mem_map.mp he
    exact exact_ofNats (h.remembered entry hentry)

theorem readNats_ofNats (l : List Nat) {room : Nat} (hroom : (Json.ofNats l).depth ≤ room) :
    Draft.list? (fun _ => Draft.nat?) room (.ofJson (.ofNats l)) = some l :=
  Draft.list?_ofJson hroom fun n _ _ _ => Draft.nat?_ofJson n

theorem ofList_toList (states : NodeSet) : NodeSet.ofList states.toList = states :=
  NodeSet.ext fun _ => NodeSet.mem_ofList

/-- A snapshot is read back, as deep as there is room. -/
theorem read_toJson (h : s.Exact) : ∀ {room : Nat}, (s.toJson id).depth ≤ room →
    read Draft.value? room (.ofJson (s.toJson id)) = some s
  | 0, hroom => nomatch hroom
  | room + 1, hroom => by
    rw [toJson_eq] at hroom ⊢
    refine Draft.read_record rfl (by decide) hroom fun known hfields => ?_
    simp only [List.forall_mem_cons] at hfields
    obtain ⟨hvalue, hconfiguration, hcontext, hhistory, hevent, hactions, hdone, hchanged, -⟩ :=
      hfields
    have hvalue := hvalue.required fun hroom => s.value.read_toJson h.value hroom
    have hconfiguration := hconfiguration.required fun hroom => readNats_ofNats _ hroom
    have hcontext := hcontext.required fun hroom =>
      Draft.value?_ofJson s.context h.context.wellFormed hroom
    have hhistory := hhistory.required fun hroom =>
      Draft.dict?_ofJson h.history hroom fun e _ _ hroom => readNats_ofNats e.2 hroom
    have hevent := hevent.required fun hroom => s.event.read_toJson h.event hroom
    have hactions : known.required "actions" (Draft.list? (fun _ => Draft.text?) room) =
        some s.actions :=
      hactions.required fun hroom => Draft.list?_ofJson hroom fun _ _ _ _ => rfl
    have hdone : known.required "done" Draft.bool? = some s.done := hdone.required fun _ => rfl
    have hchanged : known.required "changed" Draft.bool? = some s.changed :=
      hchanged.required fun _ => rfl
    simp [hvalue, hconfiguration, hcontext, hhistory, hevent, hactions, hdone, hchanged,
      ofList_toList]

end Snapshot

/-! ## The snapshots of a machine -/

namespace Machine

variable {E A : Type} {m : Machine Json E A} {s : Snapshot Json}

theorem ordered_finish {event : Event} {done changed : Bool} {x : Execution Json E} :
    (m.finish event done changed x).snapshot.value.Ordered :=
  StateValue.ordered_ofConfigurationWithin _ _ _ _

theorem Visited.ordered (hs : m.Visited s) : s.value.Ordered := by
  induction hs with
  | start h =>
    obtain ⟨x, y, -, -, rfl⟩ := startStep_ok h
    exact ordered_finish
  | step _ h ih =>
    rcases step_ok h with rfl | ⟨transitions, x, y, -, -, -, rfl⟩
    · exact ih
    · exact ordered_finish
  | exit _ h _ =>
    obtain ⟨y, -, rfl⟩ := outcome_ok h
    exact ordered_finish

theorem sorted_microstep {mode : Mode} {transitions : List Nat} {event : Event}
    {x y : Execution Json E} (hx : x.history.Sorted)
    (h : Execution.microstep m.chart m.registry mode transitions event x = .ok y) :
    y.history.Sorted := by
  obtain ⟨entries, -, hmoved⟩ := Execution.microstep_spec h
  rw [hmoved.history]
  exact Execution.recordHistory_keeps
    (fun _ _ name _ _ states hsorted => hsorted.insert name states) hx

theorem sorted_settle {mode : Mode} {event : Event} {x y : Execution Json E}
    (hx : x.history.Sorted) (h : m.settle mode event x = .ok y) : y.history.Sorted :=
  stabilize_invariant (P := fun x => x.history.Sorted) (fun x _ choice _ _ hx _ ht =>
    sorted_microstep (x := { x with internal := choice.internal }) hx ht) hx h

theorem Visited.sorted (hs : m.Visited s) : s.history.Sorted := by
  induction hs with
  | start h =>
    obtain ⟨x, y, hx, hy, rfl⟩ := startStep_ok h
    obtain ⟨entries, -, hmoved⟩ := Execution.enterInitial_spec hx
    exact sorted_settle (by rw [hmoved.history]; exact .nil) hy
  | step _ h ih =>
    rcases step_ok h with rfl | ⟨transitions, x, y, -, hx, hy, rfl⟩
    · exact ih
    · exact sorted_settle (sorted_microstep (x := execution _) ih hx) hy
  | exit _ h ih =>
    obtain ⟨y, hy, rfl⟩ := outcome_ok h
    have hhistory := (Execution.exitStates_moved hy).history
    exact (congrArg Dict.Sorted hhistory).mpr ih

/-- All parts of a snapshot that a machine has come to are as they are written, if there are no
floats in its context and in the payload of its event. -/
theorem Visited.exact (hclosed : m.chart.Closed) (hsize : m.chart.size ≤ maxNat64)
    (hs : m.Visited s) (hcontext : s.context.Exact) (hevent : s.event.Exact) : s.Exact where
  value := hs.ordered
  configuration n hn := by
    have := (hs.inChart hclosed).holds n hn
    omega
  context := hcontext
  history := hs.sorted
  remembered e he n hn := by
    have := (hs.inChart hclosed).recalls e.1 e.2 (Dict.get?_of_mem hs.sorted he) n hn
    omega
  event := hevent

end Machine

namespace Snapshot

/-- A snapshot can be put away as text and gone on with: the text of any snapshot that a
machine has come to, by starts, steps and exits, is read as that snapshot, if there are no floats in
its context and in the payload of its event, and if it nests at most as deep as can be read (the
number of a state has 64 bits at most). So every event leads from what was read to what it leads to
from the snapshot itself. -/
theorem reads_back {E A : Type} {registry : Registry Json E A} {context : Json}
    {maxMicrosteps : Nat} {d : Definition} {m : Machine Json E A}
    (hb : Machine.build registry context maxMicrosteps d = .ok m)
    (hsize : m.chart.size ≤ maxNat64) {s : Snapshot Json} (hs : m.Visited s)
    (hcontext : s.context.Exact) (hevent : s.event.Exact)
    (hdepth : (s.toJson id).depth ≤ Draft.maxDepth) :
    ∃ t, ofText? (s.toJson id).render = some t ∧ t = s ∧
      ∀ event mode, m.step t event mode = m.step s event mode := by
  have hexact := hs.exact (Chart.closed_of_build (Machine.chart_of_build hb)) hsize hcontext hevent
  refine ⟨s, ?_, rfl, fun _ _ => rfl⟩
  simp [ofText?, Draft.ofText?_render hexact.toJson, read_toJson hexact hdepth]

/-- What is known of the player: nothing, how often it was touched, and by whom. -/
def touches : Json := .arr [.null, .num (.int (-1)), .obj [("\"", .str "\\é\n")]]

def touchedPlayer : Machine Json Unit Unit := Machine.buildD {} touches 10 Machine.player

/-- The player has come back to its large picture. -/
theorem reads_back_player : ∃ s, touchedPlayer.chart.size ≤ maxNat64 ∧ touchedPlayer.Visited s ∧
    s.context.Exact ∧ s.event.Exact ∧ (s.toJson id).depth ≤ Draft.maxDepth ∧
    s.history ≠ [] ∧ s.event.payload ≠ [] ∧ s.event.origin = some "remote" ∧
    ∃ t, ofText? (s.toJson id).render = some t ∧ t = s ∧
      ∀ event mode, touchedPlayer.step t event mode = touchedPlayer.step s event mode := by
  have hb : Machine.build {} touches 10 Machine.player = .ok touchedPlayer :=
    Machine.build_eq_buildD (by decide +kernel)
  have hsize : touchedPlayer.chart.size ≤ maxNat64 := by decide +kernel
  have hrun : (do
      let a ← (touchedPlayer.startStep .live).result
      let b ← (touchedPlayer.step a.snapshot { type := "ZOOM" } .live).result
      let c ← (touchedPlayer.step b.snapshot { type := "OFF" } .live).result
      (touchedPlayer.step c.snapshot
        { type := "ON", payload := [("by", .arr [.null])], origin := some "remote" } .live).result :
        Except Failure (Macrostep Json)).toOption.any (fun step =>
          decide (step.snapshot.context.Exact ∧ step.snapshot.event.Exact ∧
            (step.snapshot.toJson id).depth ≤ Draft.maxDepth ∧ step.snapshot.history ≠ [] ∧
            step.snapshot.event.payload ≠ [] ∧ step.snapshot.event.origin = some "remote")) =
      true := by decide +kernel
  obtain ⟨step, hstep, hall⟩ := exists_ok_of_any hrun
  simp only [bind_ok] at hstep
  obtain ⟨a, ha, b, hb', c, hc, hd⟩ := hstep
  obtain ⟨hcontext, hevent, hdepth, hhistory, hpayload, horigin⟩ := of_decide_eq_true hall
  have hs : touchedPlayer.Visited step.snapshot :=
    (((Machine.Visited.start ha).step hb').step hc).step hd
  exact ⟨_, hsize, hs, hcontext, hevent, hdepth, hhistory, hpayload, horigin,
    reads_back hb hsize hs hcontext hevent hdepth⟩

end Snapshot

end Statechart
