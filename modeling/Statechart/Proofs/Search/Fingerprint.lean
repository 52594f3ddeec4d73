import Statechart.Proofs.Configuration.Reachable
import Statechart.Proofs.Configuration.Value
import Statechart.Proofs.Json.Text
import Statechart.Proofs.Search.Traced

/-!
# What the fingerprint of a snapshot says about it

The fingerprint of a snapshot is the text of its value and that of its context. Both can be told
from it, and the value of a legal configuration shows all of it. What a macrostep depends on
besides these is what history states remember, and this is left out. So snapshots of one
fingerprint go on alike if nothing is remembered differently, and may part if something is.

* `Snapshot.fingerprint_inj`: the value and the text of the context can be told from it.
* `Machine.interchangeable_of_fingerprint`: when snapshots of one fingerprint go on alike.
* `Machine.fingerprint_forgets`: two that do not, and a search that misses a state for it.
-/
namespace Statechart

namespace StateValue

mutual

/-- A written state value determines the value and what follows it. -/
theorem write_inj : ∀ (v w : StateValue) {rest tail : List Char},
    v.toJson.write rest = w.toJson.write tail → v = w ∧ rest = tail
  | .leaf k, .leaf l, rest, tail, h => by
    obtain ⟨rfl, htail⟩ := Json.writeText_inj h
    exact ⟨rfl, htail⟩
  | .leaf k, .branch children, rest, tail, h => by
    cases children <;> simp [toJson, toJsonAll, Json.write, Json.writeText] at h
  | .branch children, .leaf k, rest, tail, h => by
    cases children <;> simp [toJson, toJsonAll, Json.write, Json.writeText] at h
  | .branch [], .branch [], rest, tail, h => by
    simpa [toJson, toJsonAll, Json.write] using h
  | .branch [], .branch (_ :: _), rest, tail, h => by
    simp [toJson, toJsonAll, Json.write, Json.writeText] at h
  | .branch (_ :: _), .branch [], rest, tail, h => by
    simp [toJson, toJsonAll, Json.write, Json.writeText] at h
  | .branch (x :: xs), .branch (y :: ys), rest, tail, h => by
    -- behind its brace a branch is written as entries after the first one are
    have hfields : Json.writeFields (toJsonAll (x :: xs)) ('\x7d' :: rest) =
        Json.writeFields (toJsonAll (y :: ys)) ('\x7d' :: tail) := by
      simpa [toJson, toJsonAll, Json.write, Json.writeFields] using h
    obtain ⟨heq, htail⟩ := writeFields_inj (x :: xs) (y :: ys) hfields
    exact ⟨by rw [heq], htail⟩

theorem writeFields_inj : ∀ (xs ys : List (String × StateValue)) {rest tail : List Char},
    Json.writeFields (toJsonAll xs) ('\x7d' :: rest) =
      Json.writeFields (toJsonAll ys) ('\x7d' :: tail) → xs = ys ∧ rest = tail
  | [], [], rest, tail, h => by simpa [toJsonAll, Json.writeFields] using h
  | [], _ :: _, rest, tail, h => by simp [toJsonAll, Json.writeFields] at h
  | _ :: _, [], rest, tail, h => by simp [toJsonAll, Json.writeFields] at h
  | (k, x) :: xs, (l, y) :: ys, rest, tail, h => by
    simp only [toJsonAll, Json.writeFields, List.cons.injEq, true_and] at h
    obtain ⟨rfl, hx⟩ := Json.writeText_inj h
    obtain ⟨rfl, hxs⟩ := write_inj x y (List.cons.inj hx).2
    obtain ⟨rfl, htail⟩ := writeFields_inj xs ys hxs
    exact ⟨rfl, htail⟩

end

end StateValue

/-- A fingerprint determines the value and the text of the context, whatever characters are in
the keys and in the context. -/
theorem Snapshot.fingerprint_inj {C : Type} {contextToJson : C → Json} {s t : Snapshot C}
    (h : s.fingerprint contextToJson = t.fingerprint contextToJson) :
    s.value = t.value ∧ (contextToJson s.context).render = (contextToJson t.context).render := by
  have htext := congrArg String.toList h
  unfold fingerprint StateValue.render at htext
  rw [String.append_assoc, String.append_assoc, Json.toList_render_append,
    Json.toList_render_append] at htext
  obtain ⟨hv, hrest⟩ := StateValue.write_inj _ _ htext
  exact ⟨hv, String.toList_inj.mp (by simpa using hrest)⟩

namespace Machine

variable {C E A : Type} [BEq C] {m : Machine C E A} {s t : Snapshot C}

/-- Snapshots of one fingerprint go on alike, in legal configurations of a machine that was
built, if the text of a context says which it is and history states remember the same in both,
or there are none. -/
theorem interchangeable_of_fingerprint {registry : Registry C E A} {context : C}
    {maxMicrosteps : Nat} {d : Definition} (hb : build registry context maxMicrosteps d = .ok m)
    {contextToJson : C → Json} (hs : m.Reachable s) (ht : m.Reachable t)
    (hsl : m.chart.Legal s.configuration) (htl : m.chart.Legal t.configuration)
    (hf : s.fingerprint contextToJson = t.fingerprint contextToJson)
    (hcontext : (contextToJson s.context).render = (contextToJson t.context).render →
      s.context = t.context)
    (hhistory : s.history = t.history ∨ ∀ n, (m.chart.node n).isHistory = false) (event : Event) :
    m.transition s event = m.transition t event := by
  have haccepted := accepted_of_build hb
  obtain ⟨hvalue, htext⟩ := Snapshot.fingerprint_inj hf
  have hconfiguration : s.configuration = t.configuration :=
    hsl.eq_of_value haccepted (keyed_of_build hb) htl
      (by rw [← hs.shown.1, ← ht.shown.1, hvalue])
  have hremembered : s.history = t.history := by
    rcases hhistory with hsame | hno
    · exact hsame
    · rw [hs.history_eq_nil haccepted hno, ht.history_eq_nil haccepted hno]
  have hdone : s.done = t.done := by rw [hs.shown.2, ht.shown.2, hconfiguration]
  unfold transition
  rw [step_congr hvalue hconfiguration (hcontext htext) hremembered hdone]

/-- A heater that goes on where it was turned off, and a step further if it was hot there. -/
def heater : Definition := {
  key := "heater"
  initial := some "off"
  states := [
    { key := "off"
      on := [⟨"RESUME", [{
        target := ["#heater.on.last"], actions := [.raise { type := "BOOST" }] }]⟩] },
    { key := "on"
      initial := some "low"
      on := [⟨"OFF", [{ target := ["off"] }]⟩]
      states := [
        { key := "low", on := [⟨"NEXT", [{ target := ["high"] }]⟩] },
        { key := "high", on := [⟨"BOOST", [{ target := ["full"] }]⟩] },
        { key := "full" },
        { key := "last", history := some .shallow }] }] }

def heaterMachine : Machine Unit Unit Unit := buildD {} () 10 heater

def heaterOptions : SearchOptions Unit :=
  { events := [{ type := "RESUME" }, { type := "NEXT" }, { type := "OFF" }]
    snapshotFingerprint := Snapshot.fingerprint fun _ => .null }

def heaterAfter (events : List String) : Except Failure (Snapshot Unit) := do
  (events.map fun type => { type }).foldlM heaterMachine.transition (← heaterMachine.initial)

theorem candidates_heater (s : Snapshot Unit) : heaterOptions.candidates s =
    ["RESUME", "NEXT", "OFF"].map fun type => (type, { type }) := rfl

theorem reached_heaterAfter {events : List String} {s : Snapshot Unit}
    (hall : ∀ type ∈ events, type ∈ ["RESUME", "NEXT", "OFF"]) (h : heaterAfter events = .ok s) :
    Search.Reached heaterMachine heaterOptions s := by
  obtain ⟨first, hfirst, h⟩ := bind_ok.mp h
  refine (Search.Reached.start hfirst).foldlM_transition (fun event hevent s => ?_) h
  obtain ⟨type, htype, rfl⟩ := List.mem_map.mp hevent
  rw [candidates_heater]
  exact ⟨_, List.mem_map_of_mem (hall type htype), rfl⟩

/-- The heater was turned off when it was low; an event that makes no difference came after it. -/
theorem interchangeable_heater : ∃ s t : Snapshot Unit,
    build {} () 10 heater = .ok heaterMachine ∧
    heaterMachine.Reachable s ∧ heaterMachine.Reachable t ∧
    heaterMachine.chart.Legal s.configuration ∧ heaterMachine.chart.Legal t.configuration ∧
    s.fingerprint (fun _ => .null) = t.fingerprint (fun _ => .null) ∧
    s.history = t.history ∧ s.history ≠ [] ∧ s ≠ t ∧
    heaterMachine.transition s { type := "RESUME" } =
      heaterMachine.transition t { type := "RESUME" } := by
  have hb : build {} () 10 heater = .ok heaterMachine := build_eq_buildD (by decide +kernel)
  have wf : heaterMachine.chart.WellFormed := by decide +kernel
  have hrun : (do
      let s ← heaterAfter ["RESUME", "OFF"]
      let t ← heaterAfter ["RESUME", "OFF", "NEXT"]
      return decide (s.fingerprint (fun _ => .null) = t.fingerprint (fun _ => .null)) &&
        decide (s.history = t.history ∧ s.history ≠ [] ∧ s ≠ t)) = .ok true := by decide +kernel
  simp only [bind_ok, pure_ok, Bool.and_eq_true, decide_eq_true_eq] at hrun
  obtain ⟨s, hs, t, ht, hsame, hhistory, hnotes, hne⟩ := hrun
  have hs := (reached_heaterAfter (by simp) hs).reachable
  have ht := (reached_heaterAfter (by simp) ht).reachable
  have hsl := (hs.sound (accepted_of_build hb) wf).legal
  have htl := (ht.sound (accepted_of_build hb) wf).legal
  exact ⟨s, t, hb, hs, ht, hsl, htl, hsame, hhistory, hnotes, hne,
    interchangeable_of_fingerprint hb hs ht hsl htl hsame (fun _ => rfl) (.inl hhistory) _⟩

/-- Snapshots of one fingerprint can part: the heater is off at the start and off after it was
high, and is turned on again. It is full then in one case only, and a search that takes the two
for one finds no way to that. -/
theorem fingerprint_forgets : ∃ s t u v : Snapshot Unit,
    heaterMachine.Reachable s ∧ heaterMachine.Reachable t ∧
    s.fingerprint (fun _ => .null) = t.fingerprint (fun _ => .null) ∧
    heaterMachine.transition s { type := "RESUME" } = .ok u ∧
    heaterMachine.transition t { type := "RESUME" } = .ok v ∧
    u.fingerprint (fun _ => .null) ≠ v.fingerprint (fun _ => .null) ∧
    Search.Reached heaterMachine heaterOptions v ∧ v.matches? "on.full" = true ∧
    (Search.shortestTo heaterMachine heaterOptions 5 (·.matches? "on.full")).run =
      some (.ok []) := by
  have hrun : (do
      let s ← heaterAfter []
      let t ← heaterAfter ["RESUME", "NEXT", "OFF"]
      let u ← heaterMachine.transition s { type := "RESUME" }
      let v ← heaterMachine.transition t { type := "RESUME" }
      return decide (s.fingerprint (fun _ => .null) = t.fingerprint (fun _ => .null)) &&
        decide (u.fingerprint (fun _ => .null) ≠ v.fingerprint (fun _ => .null)) &&
        v.matches? "on.full") = .ok true := by decide +kernel
  have hfound : (Search.shortestTo heaterMachine heaterOptions 5 (·.matches? "on.full")).run =
      some (.ok []) := by decide +kernel
  simp only [bind_ok, pure_ok, Bool.and_eq_true, decide_eq_true_eq] at hrun
  obtain ⟨s, hs, t, ht, u, hu, v, hv, ⟨hsame, hpart⟩, hfull⟩ := hrun
  have hs := reached_heaterAfter (by simp) hs
  have ht := reached_heaterAfter (by simp) ht
  exact ⟨s, t, u, v, hs.reachable, ht.reachable, hsame, hu, hv, hpart,
    ht.next (e := ("RESUME", { type := "RESUME" })) (by simp [candidates_heater]) hv, hfull, hfound⟩

end Machine

end Statechart
