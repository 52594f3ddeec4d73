import Statechart.Proofs.Json.Readback
import Statechart.Proofs.Search.Fingerprint

/-!
# What the fingerprint of a snapshot tells apart

The fingerprint of a snapshot is the text of its value, a separator and the text of its context.
The value can be told from it wherever it ends, since its text is read back with what follows it;
in legal configurations it is the value of one configuration only. What follows the separator is
the text of the context and determines it. So no key and no text in a context, whatever quotes,
blanks or separators they have, makes two snapshots look alike that are not.

* `fingerprint_eq_iff`: snapshots of one fingerprint are those of one configuration and
  one context.
-/
namespace Statechart.Snapshot

variable {E A : Type} {m : Machine Json E A} {s t : Snapshot Json}

/-- The fingerprint separates configurations and contexts: two snapshots of a machine that was
built, with legal configurations, the values of these and contexts without floats, have one
fingerprint exactly if their configurations and their contexts are the same. -/
theorem fingerprint_eq_iff {registry : Registry Json E A} {context : Json} {maxMicrosteps : Nat}
    {d : Definition} (hb : Machine.build registry context maxMicrosteps d = .ok m)
    (hs : m.chart.Legal s.configuration) (ht : m.chart.Legal t.configuration)
    (hsv : s.value = .ofConfiguration m.chart Chart.root s.configuration)
    (htv : t.value = .ofConfiguration m.chart Chart.root t.configuration)
    (hsc : s.context.Exact) (htc : t.context.Exact) :
    s.fingerprint id = t.fingerprint id ↔
      s.configuration = t.configuration ∧ s.context = t.context := by
  constructor
  · intro h
    obtain ⟨hvalue, htext⟩ := fingerprint_inj h
    exact ⟨hs.eq_of_value (Machine.accepted_of_build hb) (Machine.keyed_of_build hb) ht
      (by rw [← hsv, ← htv, hvalue]), Json.render_inj hsc htc htext⟩
  · rintro ⟨hconfiguration, hcontext⟩
    rw [fingerprint, fingerprint, hsv, htv, hconfiguration, hcontext]

/-- A cabinet of two drawers, whose labels look like pieces of a fingerprint. -/
def cabinet : Definition := {
  key := "cabinet"
  kind := some .parallel
  states := [
    { key := "\"\x7d | \x7b"
      states := [{ key := "shut", on := [⟨"PULL", [{ target := ["\\"] }]⟩] }, { key := "\\" }] },
    { key := " | ", states := [{ key := "shut" }] },
    { key := "empty" }] }

def contents : Json := .obj [("\" | \x7b", .arr [.num (.int (-3)), .str "\x7d | 0"]), ("n", .null)]

def cabinetMachine : Machine Json Unit Unit := Machine.buildD {} contents 10 cabinet

/-- The cabinet with its drawers shut, and after a pull at the first. -/
theorem fingerprint_eq_iff_cabinet : ∃ s t : Snapshot Json,
    Machine.build {} contents 10 cabinet = .ok cabinetMachine ∧
    cabinetMachine.chart.Legal s.configuration ∧ cabinetMachine.chart.Legal t.configuration ∧
    s.value = .ofConfiguration cabinetMachine.chart Chart.root s.configuration ∧
    t.value = .ofConfiguration cabinetMachine.chart Chart.root t.configuration ∧
    s.context.Exact ∧ t.context.Exact ∧ s.configuration ≠ t.configuration ∧
    s.context = t.context ∧
    (s.fingerprint id = t.fingerprint id ↔
      s.configuration = t.configuration ∧ s.context = t.context) := by
  have hb : Machine.build {} contents 10 cabinet = .ok cabinetMachine :=
    Machine.build_eq_buildD (by decide +kernel)
  have wf : cabinetMachine.chart.WellFormed := by decide +kernel
  have hrun : (do
      let s ← cabinetMachine.initial
      let t ← cabinetMachine.transition s { type := "PULL" }
      return decide (s.context.Exact ∧ t.context.Exact) &&
        decide (s.configuration ≠ t.configuration ∧ s.context = t.context)) = .ok true := by
    decide +kernel
  simp only [bind_ok, pure_ok, Bool.and_eq_true, decide_eq_true_eq] at hrun
  obtain ⟨s, hs, t, ht, ⟨hsc, htc⟩, hne, hcontext⟩ := hrun
  have hs := Machine.reachable_of_initial hs
  have ht := hs.transition ht
  have hsl := (hs.sound (Machine.accepted_of_build hb) wf).legal
  have htl := (ht.sound (Machine.accepted_of_build hb) wf).legal
  exact ⟨s, t, hb, hsl, htl, hs.shown.1, ht.shown.1, hsc, htc, hne, hcontext,
    fingerprint_eq_iff hb hsl htl hs.shown.1 ht.shown.1 hsc htc⟩

end Statechart.Snapshot
